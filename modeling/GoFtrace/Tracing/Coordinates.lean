import GoFtrace.Bpf.Load
import GoFtrace.Elf.Returns
import GoFtrace.Tracing.Parser

/-!
# Where the probes are

`Parse` of `internal/uprobe/parser.go` on a file: each probe has an address, an offset in its
function and an offset in the file. Four functions compute them, and each of them looks the symbol
up by itself.

* `parseFile_probes`: the probes are those of the bodies of the attached functions, at their
  places.
* `parse_designates`: the return probes designate the RET instructions, unless a function is
  attached twice.
* `sharedName_twice`: two functions of one name.
-/

namespace GoFtrace.Tracing

open Elf (File Cache Decoder FileSymbol Inst Result TextSection orReturn)
open Uprobe (FetchError Variable)

/-! ## Probes in the file -/

/-- `Uprobe` with its offset in the file. -/
structure FileProbe extends GoFtrace.Uprobe where
  absOffset : UInt64

/-- The zero value of a symbol. -/
def noSymbol : FileSymbol := { name := "", value := 0, info := 0 }

def goexitProbe (sym : FileSymbol) (entOffset : UInt64) : FileProbe :=
  { funcname := "runtime.goexit1", location := .atGoroutineExit, address := sym.value
    absOffset := entOffset, relOffset := 0 }

/-- The probe that the loop appends for the entry of a function. -/
def entryProbe (opts : ParseOptions) (fetches : Fetches) (funcname : String) (sym : FileSymbol)
    (entOffset : UInt64) : FileProbe :=
  { funcname := funcname, location := .atEntry, address := sym.value, absOffset := entOffset
    relOffset := 0, fetchArgs := fetches.fetchArgs funcname
    values := fetches.argValues funcname, wanted := opts.wants funcname }

/-- The probe that it appends for a RET. -/
def retProbe (opts : ParseOptions) (fetches : Fetches) (funcname : String) (sym : FileSymbol)
    (entOffset retOffset : UInt64) : FileProbe :=
  { funcname := funcname, location := .atRet, address := sym.value + (retOffset - entOffset)
    absOffset := retOffset, relOffset := retOffset - entOffset
    fetchArgs := fetches.retFetchArgs funcname, values := fetches.retValues funcname
    wanted := opts.wants funcname }

/-- The loop that fills `attachFuncs`. -/
def attachNames (opts : ParseOptions) (symbols : List FileSymbol) : List String :=
  symbols.filterMap fun s =>
    if s.isFunc && (opts.uprobeWildcards ++ opts.funcNames).any (matchName · s.name) &&
        !(opts.excludeVendor && contains s.name "/vendor/") then
      some s.name
    else none

section
variable {τ : Type} (f : File τ) (d : Decoder)
  (functionVariables : String → Option (List Variable × List Variable)) (opts : ParseOptions)

/-- `fillAutoFetch`, with the calls that `FunctionVariables` makes of the file. -/
def fillFile : List String → Fetches → Cache τ → Fetches × Cache τ
  | [], fetches, c => (fetches, c)
  | fn :: names, fetches, c =>
    let needEntry := opts.autoFetchArgs && (fetches.fetchArgs fn).isEmpty
    let needRet := opts.autoFetchRets && (fetches.retFetchArgs fn).isEmpty
    if needEntry || needRet then
      fillFile names (fetches.fill opts.autoFetchArgs opts.autoFetchRets functionVariables fn)
        (f.nonInlinedSubprogramDIEs c).2
    else fillFile names fetches c

/-- An empty type is an index out of range. -/
def rulesFailed {α : Type} (v : α) : FetchError → Result α
  | .indexOutOfRange => .panic
  | e => .returned v (some e.text)

/-- `return nil, err`. -/
def nilProbes (err : String) : Result (List FileProbe) := .returned [] (some err)

/-- What `Parse` has before its last loop: the four maps, `attachFuncs` and the first probe. -/
abbrev Head := Fetches × List String × List FileProbe

def nilHead : Head := ({ fetchArgs := fun _ => [], retFetchArgs := fun _ => [] }, [], [])

/-- `Parse` between the explicit rules and its last loop. -/
def parseSymbols (rules : Fetches) (c : Cache τ) : Result Head × Cache τ :=
  let fail := fun err => .returned nilHead (some err)
  orReturn (f.symbolTable c) fail fun table c =>
    let names := attachNames opts table.1
    let (fetches, c) := fillFile f functionVariables opts names rules c
    orReturn (f.resolveSymbol c "runtime.goexit1") fail fun sym c =>
      orReturn (f.funcOffset c "runtime.goexit1") fail fun entOffset c =>
        (.returned (fetches, names, [goexitProbe (sym.getD noSymbol) entOffset]) none, c)

/-- `Parse` up to its last loop. -/
def parseHead (c : Cache τ) : Result Head × Cache τ :=
  match Uprobe.parseFetchArgs opts.fetchFuncArgs with
  | .error e => (rulesFailed nilHead e, c)
  | .ok fetchArgs =>
    match Uprobe.parseFetchArgs opts.retFetchFuncArgs with
    | .error e => (rulesFailed nilHead e, c)
    | .ok retFetchArgs =>
      parseSymbols f functionVariables opts
        { fetchArgs := rulesOf fetchArgs, retFetchArgs := rulesOf retFetchArgs } c

/-- The last loop of `Parse`. The entry probe is taken back where no RET is found. -/
def parseFuncs (fetches : Fetches) : List String → List FileProbe → Cache τ →
    Result (List FileProbe) × Cache τ
  | [], uprobes, c => (.returned uprobes none, c)
  | funcname :: names, uprobes, c =>
    orReturn (f.resolveSymbol c funcname) nilProbes fun sym c =>
      orReturn (f.funcOffset c funcname) nilProbes fun entOffset c =>
        let sym := sym.getD noSymbol
        let uprobes := uprobes ++ [entryProbe opts fetches funcname sym entOffset]
        match f.funcRetOffsets d c funcname with
        | (.panic, c) => (.panic, c)
        | (.returned retOffsets err, c) =>
          if err.isSome || retOffsets.isEmpty then parseFuncs fetches names uprobes.dropLast c
          else
            parseFuncs fetches names
              (uprobes ++ retOffsets.map (retProbe opts fetches funcname sym entOffset)) c

/-- `Parse`. -/
def parseFile (c : Cache τ) : Result (List FileProbe) × Cache τ :=
  orReturn (parseHead f functionVariables opts c) nilProbes
    fun (fetches, names, uprobes) c => parseFuncs f d opts fetches names uprobes c

/-- The names in `attachFuncs`. -/
def attached : List String :=
  match f.symbols with
  | .error _ => []
  | .ok symbols => attachNames opts (f.table symbols).1

/-- The four maps that `fillAutoFetch` leaves. -/
def filled (rules : Fetches) : Fetches :=
  (attached f opts).foldl
    (Fetches.fill opts.autoFetchArgs opts.autoFetchRets functionVariables) rules

/-! ## Places -/

/-- The offset of an address in the file. -/
def fileOffset (sec : TextSection) (addr : UInt64) : UInt64 := addr - sec.addr + sec.offset

theorem sub_fileOffset (sec : TextSection) (addr : UInt64) :
    addr - fileOffset sec addr = sec.addr - sec.offset := by
  unfold fileOffset
  grind

theorem fileOffset_add (sec : TextSection) (addr p : UInt64) :
    fileOffset sec addr + p = fileOffset sec (addr + p) := by
  unfold fileOffset
  grind

/-- A probe with its offset in the file. -/
def inFile (sec : TextSection) (u : GoFtrace.Uprobe) : FileProbe :=
  { u with absOffset := fileOffset sec u.address }

/-- A decoded function as it is traced. -/
def traced (fetches : Fetches) (body : String × List Inst) : TracedFunc :=
  { name := body.1
    entry := ((f.symbolOf body.1).getD noSymbol).value
    rets := (Elf.retPositions body.2 0).map UInt64.ofNat
    wanted := opts.wants body.1
    fetchArgs := fetches.fetchArgs body.1
    values := fetches.argValues body.1
    retFetchArgs := fetches.retFetchArgs body.1
    retValues := fetches.retValues body.1 }

section
variable {f d opts} {sec : TextSection} {c : Cache τ} {fetches : Fetches}

theorem resolveSymbol_returned (hc : f.TablesOk c) {name : String} {sym : Option FileSymbol}
    (h : (f.resolveSymbol c name).1 = .returned sym none) :
    ∃ s, sym = some s ∧ f.symbolOf name = some s := by
  obtain ⟨table, htable, hnext⟩ := File.of_orReturn (by simp) h
  unfold File.symbolOf
  cases hsyms : f.symbols with
  | error err =>
    rw [(File.symbolTable_fails hsyms c hc).1] at htable
    cases htable
  | ok symbols =>
    rw [(File.symbolTable_returns hsyms c hc).1] at htable
    obtain rfl := (Result.returned.inj htable).1
    dsimp only at hnext ⊢
    cases hsym : (f.table symbols).2 name with
    | none =>
      rw [hsym] at hnext
      cases hnext
    | some s =>
      rw [hsym] at hnext
      exact ⟨s, (Result.returned.inj hnext).1.symm, rfl⟩

theorem funcOffset_returned (hsec : f.text = some sec) (hc : f.TablesOk c) {name : String}
    {offset : UInt64} (h : (f.funcOffset c name).1 = .returned offset none) {s : FileSymbol}
    (hs : f.symbolOf name = some s) : offset = fileOffset sec s.value := by
  obtain ⟨sym, hsym, hnext⟩ := File.of_orReturn (by simp) h
  obtain ⟨s', rfl, hs'⟩ := resolveSymbol_returned hc hsym
  obtain rfl := Option.some.inj (hs.symm.trans hs')
  rw [hsec] at hnext
  exact (Result.returned.inj hnext).1.symm

/-- The probes of a function that is not skipped. -/
theorem traced_probes {name : String} {insts : List Inst} {sym : FileSymbol}
    (hsym : f.symbolOf name = some sym) (hrets : Elf.retPositions insts 0 ≠ []) :
    entryProbe opts fetches name sym (fileOffset sec sym.value) ::
        ((Elf.retPositions insts 0).map fun p => fileOffset sec sym.value + UInt64.ofNat p).map
          (retProbe opts fetches name sym (fileOffset sec sym.value)) =
      ((traced f opts fetches (name, insts)).probes).map (inFile sec) := by
  have hentry : (traced f opts fetches (name, insts)).entry = sym.value := by
    rw [traced, hsym]
    rfl
  have hne : ((traced f opts fetches (name, insts)).rets).isEmpty = false := by
    simpa [traced] using hrets
  rw [TracedFunc.probes, hne, if_neg Bool.false_ne_true, List.map_cons, List.map_map]
  congr 1
  · rw [inFile, TracedFunc.entryProbe, hentry]
    rfl
  · rw [traced, List.map_map, List.map_map]
    refine List.map_congr_left fun p _ => ?_
    dsimp only [Function.comp]
    have hrel : fileOffset sec sym.value + UInt64.ofNat p - fileOffset sec sym.value =
        UInt64.ofNat p := by
      rw [UInt64.add_comm, UInt64.add_sub_cancel]
    unfold retProbe inFile TracedFunc.retProbe
    rw [hrel, fileOffset_add, hsym]
    rfl

/-- The loop appends the probes of the functions that it decodes, at their places. -/
theorem parseFuncs_probes (hsec : f.text = some sec) {names : List String} {read : Bool}
    {uprobes out : List FileProbe} (hc : f.ReadAs sec read c)
    (h : (parseFuncs f d opts fetches names uprobes c).1 = .returned out none) :
    out = uprobes ++ ((f.bodies sec d read names).flatMap fun body =>
      (traced f opts fetches body).probes).map (inFile sec) := by
  induction names generalizing uprobes c read with
  | nil =>
    rw [parseFuncs] at h
    obtain rfl := (Result.returned.inj h).1
    exact (List.append_nil _).symm
  | cons name names ih =>
    rw [parseFuncs] at h
    obtain ⟨sym, hsym, h⟩ := File.of_orReturn (by simp [nilProbes]) h
    obtain ⟨sym, rfl, hname⟩ := resolveSymbol_returned hc.tables hsym
    have hc₁ := File.resolveSymbol_keeps File.symbolTable_readAs name c hc
    obtain ⟨entOffset, hoffset, h⟩ := File.of_orReturn (by simp [nilProbes]) h
    obtain rfl := funcOffset_returned hsec hc₁.tables hoffset hname
    have hc₂ := File.funcOffset_keeps File.symbolTable_readAs name _ hc₁
    dsimp only at h hc₂
    generalize (f.funcOffset (f.resolveSymbol c name).2 name).2 = c₂ at h hc₂
    have hkeep := File.funcInstructions_readAs hsec d name hc₂
    cases hcall : (f.funcInstructions d c₂ name).1 with
    | panic =>
      have hrets : f.funcRetOffsets d c₂ name = (.panic, _) := File.orReturn_of_panic hcall
      rw [hrets] at h
      cases h
    | returned v err =>
      obtain ⟨insts, addr, offset⟩ := v
      cases err with
      | some err =>
        have hrets : f.funcRetOffsets d c₂ name = (.returned [] (some err), _) :=
          File.orReturn_of_failed hcall
        rw [hrets] at h
        dsimp only at h
        rw [List.dropLast_concat] at h
        rw [File.bodies_skip (File.funcInstructions_failed hsec hc₂ hcall)]
        exact ih hkeep h
      | none =>
        obtain ⟨hbody, rfl, sym', hsym', rfl⟩ := File.funcInstructions_returned hsec hc₂ hcall
        obtain rfl := Option.some.inj (hname.symm.trans hsym')
        rw [File.funcRetOffsets_eq hcall] at h
        dsimp only at h
        rw [File.bodies_take hbody, List.flatMap_cons, List.map_append]
        by_cases hrets : Elf.retPositions insts 0 = []
        · rw [hrets, if_pos (by rfl), List.dropLast_concat] at h
          have hnone : (traced f opts fetches (name, insts)).probes = [] := by
            rw [TracedFunc.probes, traced, hrets]
            rfl
          rw [hnone]
          exact ih hkeep h
        · rw [if_neg (by simpa using hrets)] at h
          rw [ih hkeep h, ← traced_probes hname hrets]
          simp only [List.append_assoc, List.singleton_append]
          rfl

theorem fillFile_keeps {functionVariables : String → Option (List Variable × List Variable)}
    {Inv : Cache τ → Prop} (hdies : File.Keeps Inv f.nonInlinedSubprogramDIEs)
    (names : List String) (fetches : Fetches) (hc : Inv c) :
    Inv (fillFile f functionVariables opts names fetches c).2 := by
  induction names generalizing fetches c with
  | nil => exact hc
  | cons fn names ih =>
    rw [fillFile]
    split
    · exact ih _ (hdies c hc)
    · exact ih _ hc

/-- A function that needs neither is left alone. -/
theorem fill_self {functionVariables : String → Option (List Variable × List Variable)}
    {autoArgs autoRets : Bool} {fn : String}
    (h : (autoArgs && (fetches.fetchArgs fn).isEmpty ||
      autoRets && (fetches.retFetchArgs fn).isEmpty) = false) :
    fetches.fill autoArgs autoRets functionVariables fn = fetches := by
  obtain ⟨hentry, hret⟩ := Bool.or_eq_false_iff.mp h
  unfold Fetches.fill
  rw [hentry, hret]
  cases functionVariables fn with
  | none => rfl
  | some vars => rfl

theorem fillFile_fst {functionVariables : String → Option (List Variable × List Variable)}
    (names : List String) (fetches : Fetches) (c : Cache τ) :
    (fillFile f functionVariables opts names fetches c).1 =
      names.foldl (Fetches.fill opts.autoFetchArgs opts.autoFetchRets functionVariables)
        fetches := by
  induction names generalizing fetches c with
  | nil => rfl
  | cons fn names ih =>
    rw [fillFile, List.foldl_cons]
    split
    · apply ih
    · rename_i hneed
      rw [fill_self (Bool.eq_false_of_not_eq_true hneed)]
      apply ih

/-- What the last loop of `Parse` starts from. -/
theorem parseSymbols_returned
    {functionVariables : String → Option (List Variable × List Variable)} {read : Bool}
    (hsec : f.text = some sec) (hc : f.ReadAs sec read c) {rules : Fetches} {names : List String}
    {uprobes : List FileProbe}
    (h : (parseSymbols f functionVariables opts rules c).1 =
      .returned (fetches, names, uprobes) none) :
    f.ReadAs sec read (parseSymbols f functionVariables opts rules c).2 ∧
      names = attached f opts ∧ fetches = filled f functionVariables opts rules ∧
        ∃ sym, f.symbolOf "runtime.goexit1" = some sym ∧
          uprobes = [goexitProbe sym (fileOffset sec sym.value)] := by
  unfold parseSymbols at h ⊢
  have hc₁ := File.symbolTable_readAs c hc
  obtain ⟨table, htable, h⟩ := File.of_orReturn (by simp) h
  rw [File.orReturn_of_returned htable]
  have hattached : attachNames opts table.1 = attached f opts := by
    unfold attached
    cases hsyms : f.symbols with
    | error err =>
      rw [(File.symbolTable_fails hsyms c hc.tables).1] at htable
      cases htable
    | ok symbols =>
      rw [(File.symbolTable_returns hsyms c hc.tables).1] at htable
      obtain rfl := (Result.returned.inj htable).1
      rfl
  have hc₂ := @fillFile_keeps _ _ opts _ functionVariables _ File.dies_readAs
    (attachNames opts table.1) rules hc₁
  have hfill : (fillFile f functionVariables opts (attachNames opts table.1) rules
      (f.symbolTable c).2).1 = filled f functionVariables opts rules := by
    rw [fillFile_fst, hattached]
    rfl
  dsimp only at h hc₂ ⊢
  generalize fillFile f functionVariables opts (attachNames opts table.1) rules
    (f.symbolTable c).2 = call at h hc₂ hfill ⊢
  obtain ⟨fetches', c₂⟩ := call
  obtain rfl : fetches' = filled f functionVariables opts rules := hfill
  dsimp only at h hc₂ ⊢
  have hc₃ := File.resolveSymbol_keeps File.symbolTable_readAs "runtime.goexit1" c₂ hc₂
  obtain ⟨sym, hsym, h⟩ := File.of_orReturn (by simp) h
  obtain ⟨sym, rfl, hname⟩ := resolveSymbol_returned hc₂.tables hsym
  rw [File.orReturn_of_returned hsym]
  dsimp only at hc₃
  have hc₄ := File.funcOffset_keeps File.symbolTable_readAs "runtime.goexit1" _ hc₃
  obtain ⟨entOffset, hoffset, h⟩ := File.of_orReturn (by simp) h
  obtain rfl := funcOffset_returned hsec hc₃.tables hoffset hname
  rw [File.orReturn_of_returned hoffset]
  obtain ⟨hfetches, hnames, huprobes⟩ := by simpa using h
  exact ⟨hc₄, hnames.symm.trans hattached, hfetches.symm, sym, hname, huprobes.symm⟩

/-- The probes that `Parse` returns are those of the bodies of `attachFuncs`, with the goroutine
exit before them, at their places. -/
theorem parseFile_probes
    {functionVariables : String → Option (List Variable × List Variable)} {read : Bool}
    (hsec : f.text = some sec) (hc : f.ReadAs sec read c) {uprobes : List FileProbe}
    (h : (parseFile f d functionVariables opts c).1 = .returned uprobes none) :
    ∃ fetchArgs retFetchArgs goexit,
      Uprobe.parseFetchArgs opts.fetchFuncArgs = .ok fetchArgs ∧
      Uprobe.parseFetchArgs opts.retFetchFuncArgs = .ok retFetchArgs ∧
      f.symbolOf "runtime.goexit1" = some goexit ∧
      uprobes = (parse goexit.value ((f.bodies sec d read (attached f opts)).map
        (traced f opts (filled f functionVariables opts
          { fetchArgs := rulesOf fetchArgs, retFetchArgs := rulesOf retFetchArgs })))).map
            (inFile sec) := by
  obtain ⟨⟨fetches, names, first⟩, hhead, hloop⟩ := File.of_orReturn (by simp [nilProbes]) h
  unfold parseHead at hhead hloop
  cases hargs : Uprobe.parseFetchArgs opts.fetchFuncArgs with
  | error e =>
    rw [hargs] at hhead
    cases e <;> cases hhead
  | ok fetchArgs =>
    rw [hargs] at hhead hloop
    dsimp only at hhead hloop
    cases hrets : Uprobe.parseFetchArgs opts.retFetchFuncArgs with
    | error e =>
      rw [hrets] at hhead
      cases e <;> cases hhead
    | ok retFetchArgs =>
      rw [hrets] at hhead hloop
      obtain ⟨hkeep, rfl, rfl, sym, hsym, rfl⟩ := parseSymbols_returned hsec hc hhead
      refine ⟨fetchArgs, retFetchArgs, sym, rfl, rfl, hsym, ?_⟩
      rw [parseFuncs_probes hsec hkeep hloop, parse, List.map_cons, List.flatMap_map]
      rfl

end

/-! ## Return probes -/

/-- Whether a probe is at the end of the first `x` bytes of a function. -/
def isReturnAt (name : String) (x : Nat) (u : GoFtrace.Uprobe) : Bool :=
  u.location == .atRet && u.funcname == name && u.relOffset.toNat == x

/-- Whether a RET is decoded. -/
def hasRet (insts : List Inst) : Bool := insts.any fun inst => inst.op == .ret

/-- The return probes are at the RET instructions, one for each. -/
structure Designates (f : File τ) (sec : TextSection) (bodies : List (String × List Inst))
    (uprobes : List FileProbe) : Prop where
  /-- The three coordinates of a return probe are those of one RET. -/
  coordinates : ∀ u ∈ uprobes, u.location = .atRet → ∃ sym insts k inst,
    f.symbolOf u.funcname = some sym ∧ (u.funcname, insts) ∈ bodies ∧ insts[k]? = some inst ∧
      inst.op = .ret ∧ u.relOffset.toNat = ((insts.take k).map Inst.len).sum ∧
        u.address = sym.value + u.relOffset ∧ u.address - u.absOffset = sec.addr - sec.offset
  once : ∀ name insts k inst, (name, insts) ∈ bodies → insts[k]? = some inst → inst.op = .ret →
    uprobes.countP (fun u => isReturnAt name ((insts.take k).map Inst.len).sum u.toUprobe) = 1
  /-- An entry is followed by a return of its function. -/
  followed : ∀ i u, uprobes[i]? = some u → u.location = .atEntry →
    ∃ v, uprobes[i + 1]? = some v ∧ v.location = .atRet ∧ v.funcname = u.funcname
  entered : ∀ u ∈ uprobes, u.location = .atRet →
    ∃ e ∈ uprobes, e.location = .atEntry ∧ e.funcname = u.funcname
  /-- `Load` finds the entry of a wanted return. -/
  found : ∀ u ∈ uprobes, Bpf.isWantedRet true u.toUprobe = true →
    ∃ e ∈ uprobes, Bpf.isWantedEntry e.toUprobe = true ∧ e.funcname = u.funcname ∧
      Bpf.wantedEntry (uprobes.map FileProbe.toUprobe) u.funcname = e.address

theorem hasRet_iff {insts : List Inst} :
    hasRet insts = true ↔ ∃ x, x ∈ Elf.retPositions insts 0 := by
  rw [hasRet, List.any_eq_true]
  constructor
  · rintro ⟨inst, hinst, hop⟩
    obtain ⟨k, hk⟩ := List.mem_iff_getElem?.mp hinst
    exact ⟨_, Elf.mem_retPositions.mpr ⟨k, inst, hk, beq_iff_eq.mp hop, rfl⟩⟩
  · rintro ⟨x, hx⟩
    obtain ⟨k, inst, hk, hop, -⟩ := Elf.mem_retPositions.mp hx
    exact ⟨inst, List.mem_of_getElem? hk, beq_iff_eq.mpr hop⟩

section
variable {fns : List TracedFunc}

/-- The entry of a function is followed by its first return. -/
theorem probes_followed {i : Nat} {u : GoFtrace.Uprobe}
    (h : (fns.flatMap TracedFunc.probes)[i]? = some u) (hu : u.location = .atEntry) :
    ∃ v, (fns.flatMap TracedFunc.probes)[i + 1]? = some v ∧ v.location = .atRet ∧
      v.funcname = u.funcname := by
  induction fns generalizing i with
  | nil => cases h
  | cons fn fns ih =>
    rw [List.flatMap_cons, TracedFunc.probes] at h ⊢
    cases hrets : fn.rets with
    | nil =>
      rw [hrets] at h
      exact ih h
    | cons off offs =>
      rw [hrets] at h
      rw [List.isEmpty_cons, if_neg Bool.false_ne_true, List.cons_append] at h ⊢
      cases i with
      | zero =>
        obtain rfl := Option.some.inj h
        exact ⟨fn.retProbe off, rfl, rfl, rfl⟩
      | succ i =>
        rw [List.getElem?_cons_succ] at h ⊢
        by_cases hlt : i < ((off :: offs).map fn.retProbe).length
        · rw [List.getElem?_append_left hlt] at h
          obtain ⟨x, -, rfl⟩ := List.mem_map.mp (List.mem_of_getElem? h)
          cases hu
        · rw [List.getElem?_append_right (by omega)] at h ⊢
          obtain ⟨v, hv, hret⟩ := ih h
          refine ⟨v, ?_, hret⟩
          rw [← hv]
          congr 1
          omega

/-- A return probe is one of a function that has an entry probe too. -/
theorem probes_entered {u : GoFtrace.Uprobe} (h : u ∈ fns.flatMap TracedFunc.probes)
    (hu : u.location = .atRet) : ∃ fn ∈ fns, fn.entryProbe ∈ fns.flatMap TracedFunc.probes ∧
      ∃ off ∈ fn.rets, u = fn.retProbe off := by
  obtain ⟨fn, hfn, hmem⟩ := List.mem_flatMap.mp h
  have hprobes := hmem
  unfold TracedFunc.probes at hmem
  split at hmem
  · cases hmem
  · rename_i hrets
    rcases List.mem_cons.mp hmem with rfl | hmem
    · cases hu
    · obtain ⟨off, hoff, rfl⟩ := List.mem_map.mp hmem
      refine ⟨fn, hfn, List.mem_flatMap.mpr ⟨fn, hfn, ?_⟩, off, hoff, rfl⟩
      rw [TracedFunc.probes, if_neg hrets]
      exact List.mem_cons_self

theorem countP_returns (fn : TracedFunc) (name : String) (x : Nat) :
    fn.probes.countP (isReturnAt name x) =
      fn.rets.countP fun off => fn.name == name && off.toNat == x := by
  rw [TracedFunc.probes]
  split
  · rename_i hrets
    rw [List.isEmpty_iff.mp hrets]
    rfl
  · rw [List.countP_cons_of_neg (by simp [isReturnAt, TracedFunc.entryProbe]), List.countP_map]
    rfl

/-- `Load` finds the entry of a wanted name. -/
theorem wantedEntry_found {uprobes : List GoFtrace.Uprobe} {e : GoFtrace.Uprobe}
    (he : e ∈ uprobes) (hwanted : Bpf.isWantedEntry e = true) :
    ∃ e' ∈ uprobes, Bpf.isWantedEntry e' = true ∧ e'.funcname = e.funcname ∧
      Bpf.wantedEntry uprobes e.funcname = e'.address := by
  have hmem : e ∈ uprobes.filter fun p => Bpf.isWantedEntry p && p.funcname == e.funcname :=
    List.mem_filter.mpr ⟨he, by rw [hwanted, beq_self_eq_true]; rfl⟩
  have hlast := List.getLast?_eq_some_getLast (List.ne_nil_of_mem hmem)
  obtain ⟨hin, htest⟩ := List.mem_filter.mp (List.mem_of_getLast? hlast)
  rw [Bool.and_eq_true, beq_iff_eq] at htest
  refine ⟨_, hin, htest.1, htest.2, ?_⟩
  rw [Bpf.wantedEntry, hlast]

end

section
variable {f : File τ} {d : Decoder} {sec : TextSection} {opts : ParseOptions} {fetches : Fetches}
  {bodies : List (String × List Inst)}

/-- The return probes of a function at one place. -/
theorem countP_probes {body : String × List Inst} (hbody : f.body sec d body.1 = some body.2)
    (name : String) (x : Nat) :
    (traced f opts fetches body).probes.countP (isReturnAt name x) =
      if body.1 = name ∧ x ∈ Elf.retPositions body.2 0 then 1 else 0 := by
  have hcount : (Elf.retPositions body.2 0).countP
      ((fun off : UInt64 => body.1 == name && off.toNat == x) ∘ UInt64.ofNat) =
        (Elf.retPositions body.2 0).countP fun p => body.1 == name && p == x := by
    refine List.countP_congr fun p hp => ?_
    dsimp only [Function.comp]
    rw [File.toNat_position hbody hp]
  rw [countP_returns, traced, List.countP_map, hcount]
  by_cases hname : body.1 = name
  · have hx := @List.Nodup.count _ _ _ x _ (Elf.nodup_retPositions (File.body_bounds hbody).1 0)
    rw [List.count_eq_countP] at hx
    simpa [hname] using hx
  · simp [hname]

/-- The number of return probes of a function at a RET is the number of times that the function
is decoded. -/
theorem countP_parse (hbodies : ∀ body ∈ bodies, f.body sec d body.1 = some body.2)
    {body : String × List Inst} (hbody : body ∈ bodies) {x : Nat}
    (hx : x ∈ Elf.retPositions body.2 0) (goexit : UInt64) :
    (parse goexit (bodies.map (traced f opts fetches))).countP (isReturnAt body.1 x) =
      ((bodies.filter fun b => hasRet b.2).map Prod.fst).count body.1 := by
  have hsame : ∀ b ∈ bodies, b.1 = body.1 → b.2 = body.2 := by
    intro b hb hname
    have hb' := hbodies b hb
    rw [hname, hbodies body hbody] at hb'
    exact (Option.some.inj hb').symm
  have hone : ∀ b ∈ bodies, ((b.1 == body.1 && hasRet b.2) = true ↔
      b.1 = body.1 ∧ x ∈ Elf.retPositions b.2 0) := by
    intro b hb
    rw [Bool.and_eq_true, beq_iff_eq]
    refine and_congr_right fun hname => ?_
    rw [hsame b hb hname]
    exact ⟨fun _ => hx, fun h => hasRet_iff.mpr ⟨x, h⟩⟩
  have hsum : ∀ l : List (String × List Inst), (∀ b ∈ l, b ∈ bodies) →
      (l.flatMap fun b => (traced f opts fetches b).probes).countP (isReturnAt body.1 x) =
        l.countP fun b => b.1 == body.1 && hasRet b.2 := by
    intro l hl
    induction l with
    | nil => rfl
    | cons b l ih =>
      obtain ⟨hb, hl⟩ := List.forall_mem_cons.mp hl
      rw [List.flatMap_cons, List.countP_append, countP_probes (hbodies b hb), ih hl,
        List.countP_cons, Nat.add_comm]
      congr 1
      exact if_congr (hone b hb).symm rfl rfl
  rw [parse, List.countP_cons_of_neg (by simp [isReturnAt]), List.flatMap_map, List.count_eq_countP,
    List.countP_map, List.countP_filter]
  exact hsum bodies fun _ hb => hb

/-- A return probe in the file is at a RET of a body, and the entry is probed too. -/
theorem ret_of_mem {goexit : UInt64} {u : FileProbe}
    (hu : u ∈ (parse goexit (bodies.map (traced f opts fetches))).map (inFile sec))
    (hret : u.location = .atRet) : ∃ body ∈ bodies,
      (traced f opts fetches body).entryProbe ∈
        parse goexit (bodies.map (traced f opts fetches)) ∧
      ∃ p ∈ Elf.retPositions body.2 0,
        u = inFile sec ((traced f opts fetches body).retProbe (UInt64.ofNat p)) := by
  obtain ⟨u₀, hu₀, rfl⟩ := List.mem_map.mp hu
  rcases List.mem_cons.mp hu₀ with rfl | hu₀
  · cases hret
  · obtain ⟨fn, hfn, hentry, off, hoff, rfl⟩ := probes_entered hu₀ hret
    obtain ⟨body, hbody, rfl⟩ := List.mem_map.mp hfn
    obtain ⟨p, hp, rfl⟩ := List.mem_map.mp hoff
    exact ⟨body, hbody, List.mem_cons_of_mem _ hentry, p, hp, rfl⟩

/-- The coordinates of a return probe are those of its RET. -/
theorem ret_coordinates (hbodies : ∀ body ∈ bodies, f.body sec d body.1 = some body.2)
    {body : String × List Inst} (hbody : body ∈ bodies) {p : Nat}
    (hp : p ∈ Elf.retPositions body.2 0) {u : FileProbe}
    (hu : u = inFile sec ((traced f opts fetches body).retProbe (UInt64.ofNat p))) :
    ∃ sym insts k inst, f.symbolOf u.funcname = some sym ∧ (u.funcname, insts) ∈ bodies ∧
      insts[k]? = some inst ∧ inst.op = .ret ∧
        u.relOffset.toNat = ((insts.take k).map Inst.len).sum ∧
          u.address = sym.value + u.relOffset ∧
            u.address - u.absOffset = sec.addr - sec.offset := by
  obtain ⟨e, raw, he, -, -⟩ := File.body_cut (hbodies body hbody)
  obtain ⟨sym, hsym, -⟩ := File.extent_symbol he
  obtain ⟨k, inst, hk, hop, hlen⟩ := Elf.mem_retPositions.mp hp
  rw [Nat.zero_add] at hlen
  subst hu
  refine ⟨sym, body.2, k, inst, hsym, hbody, hk, hop, ?_, ?_, ?_⟩
  · rw [← hlen]
    exact File.toNat_position (hbodies body hbody) hp
  · show ((f.symbolOf body.1).getD noSymbol).value + UInt64.ofNat p = _
    rw [hsym]
    rfl
  · apply sub_fileOffset

/-- An entry probe in the file is followed by a return probe of its function. -/
theorem entry_followed {goexit : UInt64} {fns : List TracedFunc} {i : Nat} {u : FileProbe}
    (hi : ((parse goexit fns).map (inFile sec))[i]? = some u) (hentry : u.location = .atEntry) :
    ∃ v, ((parse goexit fns).map (inFile sec))[i + 1]? = some v ∧ v.location = .atRet ∧
      v.funcname = u.funcname := by
  rw [List.getElem?_map] at hi ⊢
  obtain ⟨u, hu, rfl⟩ := Option.map_eq_some_iff.mp hi
  cases i with
  | zero =>
    obtain rfl := Option.some.inj hu
    cases hentry
  | succ i =>
    obtain ⟨v, hv, hret, hname⟩ := probes_followed hu hentry
    refine ⟨inFile sec v, ?_, hret, hname⟩
    rw [parse, List.getElem?_cons_succ, hv]
    rfl

/-- What the probes are whatever functions are attached. -/
theorem parse_places (hbodies : ∀ body ∈ bodies, f.body sec d body.1 = some body.2)
    (goexit : UInt64) {uprobes : List FileProbe}
    (huprobes : uprobes =
      (parse goexit (bodies.map (traced f opts fetches))).map (inFile sec)) :
    Designates f sec bodies uprobes ↔
      ∀ body ∈ bodies, ∀ x ∈ Elf.retPositions body.2 0,
        (parse goexit (bodies.map (traced f opts fetches))).countP (isReturnAt body.1 x) = 1 := by
  have hcount : ∀ (name : String) (x : Nat),
      uprobes.countP (fun u => isReturnAt name x u.toUprobe) =
        (parse goexit (bodies.map (traced f opts fetches))).countP (isReturnAt name x) := by
    intro name x
    rw [huprobes, List.countP_map]
    rfl
  subst huprobes
  constructor
  · intro h body hbody x hx
    obtain ⟨k, inst, hk, hop, hlen⟩ := Elf.mem_retPositions.mp hx
    rw [Nat.zero_add] at hlen
    rw [← hcount, hlen]
    exact h.once body.1 body.2 k inst hbody hk hop
  · intro h
    refine ⟨?_, ?_, fun i u hi hentry => entry_followed hi hentry, ?_, ?_⟩
    · intro u hu hret
      obtain ⟨body, hbody, -, p, hp, heq⟩ := ret_of_mem hu hret
      exact ret_coordinates hbodies hbody hp heq
    · intro name insts k inst hbody hk hop
      rw [hcount]
      refine h (name, insts) hbody _ (Elf.mem_retPositions.mpr ⟨k, inst, hk, hop, ?_⟩)
      rw [Nat.zero_add]
    · intro u hu hret
      obtain ⟨body, -, hentry, p, -, rfl⟩ := ret_of_mem hu hret
      exact ⟨_, List.mem_map_of_mem hentry, rfl, rfl⟩
    · intro u hu hwanted
      simp only [Bpf.isWantedRet, Bool.and_eq_true, beq_iff_eq] at hwanted
      obtain ⟨body, -, hentry, p, -, rfl⟩ := ret_of_mem hu hwanted.2
      have hwant : Bpf.isWantedEntry (traced f opts fetches body).entryProbe = true := by
        rw [Bpf.isWantedEntry, Bool.and_eq_true, beq_iff_eq]
        exact ⟨hwanted.1.2, rfl⟩
      obtain ⟨e, he, hwant', hname, haddr⟩ := wantedEntry_found hentry hwant
      refine ⟨inFile sec e, List.mem_map_of_mem he, hwant', hname, ?_⟩
      have hback : ((parse goexit (bodies.map (traced f opts fetches))).map (inFile sec)).map
          FileProbe.toUprobe = parse goexit (bodies.map (traced f opts fetches)) := by
        rw [List.map_map]
        exact List.map_id _
      rw [hback]
      exact haddr

end

/-- After any calls, the return probes that `Parse` returns designate the decoded RET instructions,
one probe for each, unless a function with a decoded RET is attached twice. -/
theorem parse_designates (f : File τ) (d : Decoder)
    (functionVariables : String → Option (List Variable × List Variable)) (opts : ParseOptions)
    {sec : TextSection} (hsec : f.text = some sec) (calls : List Elf.Call)
    {uprobes : List FileProbe} :
    let c := Lib.Memo.after f.ask {} calls
    let bodies := f.bodies sec d (File.textRead sec c) (attached f opts)
    (parseFile f d functionVariables opts c).1 = .returned uprobes none →
      (Designates f sec bodies uprobes ↔
        ((bodies.filter fun body => hasRet body.2).map Prod.fst).Nodup) := by
  intro c bodies h
  have hbodies : ∀ body ∈ bodies, f.body sec d body.1 = some body.2 := fun _ => File.mem_bodies
  have hstart : f.ReadAs sec (File.textRead sec c) c := ⟨File.after_tablesOk f calls, rfl⟩
  obtain ⟨fetchArgs, retFetchArgs, goexit, -, -, -, huprobes⟩ := parseFile_probes hsec hstart h
  generalize filled f functionVariables opts
    { fetchArgs := rulesOf fetchArgs, retFetchArgs := rulesOf retFetchArgs } = fetches at huprobes
  have hcount : ∀ {body : String × List Inst}, body ∈ bodies → ∀ {x : Nat},
      x ∈ Elf.retPositions body.2 0 →
        (parse goexit.value (bodies.map (traced f opts fetches))).countP (isReturnAt body.1 x) =
          ((bodies.filter fun b => hasRet b.2).map Prod.fst).count body.1 := by
    intro body hbody x hx
    exact countP_parse hbodies hbody hx goexit.value
  rw [parse_places hbodies goexit.value huprobes]
  constructor
  · intro hone
    refine List.nodup_iff_count.mpr fun name => ?_
    by_cases hname : name ∈ (bodies.filter fun b => hasRet b.2).map Prod.fst
    · obtain ⟨body, hbody, rfl⟩ := List.mem_map.mp hname
      obtain ⟨hbody, hret⟩ := List.mem_filter.mp hbody
      obtain ⟨x, hx⟩ := hasRet_iff.mp hret
      rw [← hcount hbody hx, hone body hbody x hx]
    · rw [List.count_eq_zero.mpr hname]
      exact Nat.zero_le 1
  · intro hnodup body hbody x hx
    have hmem : body.1 ∈ (bodies.filter fun b => hasRet b.2).map Prod.fst :=
      List.mem_map_of_mem (List.mem_filter.mpr ⟨hbody, hasRet_iff.mpr ⟨x, hx⟩⟩)
    rw [hcount hbody hx]
    exact List.count_eq_one_of_mem hnodup hmem

end

/-! ## One name for two functions -/

/-- `.text` of three `RET`. -/
def threeRets : TextSection where
  addr := 4096
  offset := 512
  bytes := [195, 195, 195]
  readError := none

/-- `runtime.goexit1` and two functions of the given names, of one byte each. -/
def threeFuncs (first second : String) : File Unit where
  symbols := .ok [{ name := "runtime.goexit1", value := 4096, info := 2 },
    { name := first, value := 4097, info := 2 }, { name := second, value := 4098, info := 2 },
    { name := "runtime.etext", value := 4099, info := 0 }]
  text := some threeRets
  entries := []
  entriesError := none
  sortSymbols := Elf.SliceSort.insertion _
  sortLines := Elf.SliceSort.insertion _

def helperOpts : ParseOptions := { uprobeWildcards := ["helper*"] }

/-- The probes of a result. -/
def probesOf : Result (List FileProbe) → Option (List FileProbe)
  | .returned uprobes none => some uprobes
  | _ => none

theorem returned_of_probes {r : Result (List FileProbe)} {n : Nat} {p : FileProbe → Bool}
    (h : (probesOf r).map (List.countP p) = some n) :
    ∃ uprobes, r = .returned uprobes none ∧ uprobes.countP p = n := by
  match r with
  | .panic => cases h
  | .returned _ (some _) => cases h
  | .returned uprobes none => exact ⟨uprobes, rfl, Option.some.inj h⟩

/-- Two static functions of one name: the second one has two probes at its RET. -/
theorem sharedName_twice :
    let f := threeFuncs "helper" "helper"
    ∃ uprobes, (parseFile f Elf.sampleDecoder (fun _ => none) helperOpts {}).1 =
        .returned uprobes none ∧
      ¬ Designates f threeRets
        (f.bodies threeRets Elf.sampleDecoder true (attached f helperOpts)) uprobes := by
  intro f
  have hbodies : f.bodies threeRets Elf.sampleDecoder true (attached f helperOpts) =
      [("helper", [{ op := .ret, len := 1 }]), ("helper", [{ op := .ret, len := 1 }])] := by
    decide +kernel
  have htwo : (probesOf (parseFile f Elf.sampleDecoder (fun _ => none) helperOpts {}).1).map
      (List.countP fun u => isReturnAt "helper" 0 u.toUprobe) = some 2 := by decide +kernel
  obtain ⟨uprobes, hreturned, hcount⟩ := returned_of_probes htwo
  refine ⟨uprobes, hreturned, fun h => ?_⟩
  rw [hbodies] at h
  have hone := h.once "helper" [{ op := .ret, len := 1 }] 0 _ List.mem_cons_self rfl rfl
  rw [show (([{ op := .ret, len := 1 }] : List Inst).take 0).map Inst.len = [] from rfl,
    List.sum_nil, hcount] at hone
  exact absurd hone (by decide)

/-- Under two names each of them has its own. -/
theorem twoNames_designate :
    let f := threeFuncs "helper" "helper.func1"
    ∃ uprobes, (parseFile f Elf.sampleDecoder (fun _ => none) helperOpts {}).1 =
        .returned uprobes none ∧
      Designates f threeRets
        (f.bodies threeRets Elf.sampleDecoder true (attached f helperOpts)) uprobes := by
  intro f
  have hbodies : f.bodies threeRets Elf.sampleDecoder true (attached f helperOpts) =
      [("helper", [{ op := .ret, len := 1 }]), ("helper.func1", [{ op := .ret, len := 1 }])] := by
    decide +kernel
  have hfour : (probesOf (parseFile f Elf.sampleDecoder (fun _ => none) helperOpts {}).1).map
      (List.countP fun _ => true) = some 5 := by decide +kernel
  obtain ⟨uprobes, hreturned, -⟩ := returned_of_probes hfour
  refine ⟨uprobes, hreturned, ?_⟩
  apply (parse_designates f Elf.sampleDecoder (fun _ => none) helperOpts rfl [] hreturned).mpr
  change ((List.filter _ (f.bodies threeRets Elf.sampleDecoder true
    (attached f helperOpts))).map _).Nodup
  rw [hbodies]
  decide

end GoFtrace.Tracing
