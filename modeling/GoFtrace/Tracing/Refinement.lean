import GoFtrace.Lib.Traverse
import GoFtrace.Tracing.Coordinates

/-!
# A file is a binary

`Parser.lean` parses a `Binary`, whose symbols and RET offsets are given. `Coordinates.lean` parses
a file, with a cache between the calls. With a readable `.text` the two return the same probes.

* `resolveSymbol_fileBinary`, `tracedFunc_fileBinary`: the two agree on a name.
* `parseFile_refines`: the probes of a file are those of its binary.
-/

namespace GoFtrace.Tracing

open Elf (File Cache Decoder FileSymbol Inst Result TextSection)
open Uprobe (FetchArg Variable)

section
variable {τ : Type} (f : File τ) (sec : TextSection) (d : Decoder)
  (functionVariables : String → Option (List Variable × List Variable))
  (symbols : List FileSymbol)

def symbolRow (s : FileSymbol) : SymbolRow := { toSymbol := s.toSymbol, isFunc := s.isFunc }

/-- What `FuncRetOffsets` returns first. -/
def firstOffsets (name : String) : Option (List UInt64) :=
  match (f.funcRetOffsets d {} name).1 with
  | .returned offsets none => some offsets
  | _ => none

/-- What `Parse` reads of a file. -/
def fileBinary : Binary where
  rows := (f.table symbols).1.map symbolRow
  sorted := by
    rw [List.map_map]
    exact List.pairwise_map.mpr (f.sortSymbols.sorted symbols)
  textAddr := sec.addr
  textOffset := sec.offset
  funcRetOffsets := firstOffsets f d
  functionVariables := functionVariables

section
variable {f sec d functionVariables symbols} {opts : ParseOptions} {name : String}

/-! ## Symbols -/

/-- The map from names keeps the last symbol of a name. -/
theorem nameSymbols_eq (l : List FileSymbol) (names : Elf.SymbolMap) (name : String) :
    File.nameSymbols l names name =
      ((l.filter fun s => s.name == name).getLast?).or (names name) := by
  induction l generalizing names with
  | nil => rfl
  | cons s l ih =>
    rw [File.nameSymbols, ih]
    by_cases hname : s.name = name
    · subst hname
      rw [Function.update_self, List.filter_cons_of_pos (by simp), List.getLast?_cons]
      cases (l.filter fun s' => s'.name == s.name).getLast? with
      | none => rfl
      | some last => rfl
    · rw [Function.update_of_ne (Ne.symm hname), List.filter_cons_of_neg (by simpa using hname)]

theorem resolveSymbol_fileBinary (hsyms : f.symbols = .ok symbols) (name : String) :
    (fileBinary f sec d functionVariables symbols).resolveSymbol name =
      (f.symbolOf name).map FileSymbol.toSymbol := by
  unfold File.symbolOf
  rw [hsyms]
  show _ = (File.nameSymbols (f.table symbols).1 (fun _ => none) name).map FileSymbol.toSymbol
  rw [nameSymbols_eq, Option.or_none, Binary.resolveSymbol, Binary.symbols]
  unfold fileBinary
  rw [List.map_map, List.filter_map, List.getLast?_map]
  rfl

theorem attachFuncs_fileBinary (hsyms : f.symbols = .ok symbols) :
    (fileBinary f sec d functionVariables symbols).attachFuncs opts = attached f opts := by
  unfold attached
  rw [hsyms]
  unfold Binary.attachFuncs attachNames fileBinary
  rw [List.filterMap_map]
  rfl

/-- An attached name is that of a symbol. -/
theorem attached_symbol (h : name ∈ attached f opts) : ∃ sym, f.symbolOf name = some sym := by
  unfold attached at h
  unfold File.symbolOf
  cases hsyms : f.symbols with
  | error err =>
    rw [hsyms] at h
    cases h
  | ok symbols =>
    rw [hsyms] at h
    obtain ⟨s, hs, hname⟩ := List.mem_filterMap.mp h
    obtain ⟨-, hname⟩ := Option.ite_none_right_eq_some.mp hname
    obtain rfl := Option.some.inj hname
    show ∃ sym, File.nameSymbols (f.table symbols).1 (fun _ => none) s.name = some sym
    rw [nameSymbols_eq, Option.or_none]
    have hmem : s ∈ (f.table symbols).1.filter fun s' => s'.name == s.name :=
      List.mem_filter.mpr ⟨hs, beq_self_eq_true _⟩
    exact ⟨_, List.getLast?_eq_some_getLast (List.ne_nil_of_mem hmem)⟩

/-! ## Functions -/

/-- `Parse` of a binary whose names are all found. -/
theorem parse_of_lookups {b : Binary} {fetchArgs retFetchArgs : List (String × List FetchArg)}
    (hargs : Uprobe.parseFetchArgs opts.fetchFuncArgs = .ok fetchArgs)
    (hrets : Uprobe.parseFetchArgs opts.retFetchFuncArgs = .ok retFetchArgs)
    {goexit : Elf.Symbol} (hgoexit : b.lookup "runtime.goexit1" = .ok goexit)
    {syms : String → Elf.Symbol}
    (hsyms : ∀ name ∈ b.attachFuncs opts, b.lookup name = .ok (syms name)) :
    b.parse opts = .ok (parse goexit.value ((b.attachFuncs opts).map fun name =>
      b.tracedFunc opts (fillAutoFetch b opts
        { fetchArgs := rulesOf fetchArgs, retFetchArgs := rulesOf retFetchArgs }) name
          (syms name))) := by
  unfold Binary.parse
  rw [parseRules, hargs, parseRules, hrets, hgoexit]
  simp only [Except.mapError, bind, Except.bind]
  rw [Lib.mapM_ok_map fun name hname => by rw [hsyms name hname]; rfl]
  rfl

section
variable (hsec : f.text = some sec) (hread : sec.readError = none)
include hsec hread

/-- The first offsets are those of the body. -/
theorem firstOffsets_eq {sym : FileSymbol} (hsym : f.symbolOf name = some sym) :
    firstOffsets f d name = (f.body sec d name).map fun insts =>
      (Elf.retPositions insts 0).map fun p => fileOffset sec sym.value + UInt64.ofNat p := by
  have hc : f.ReadAs sec true {} := ⟨File.TablesOk.empty f, by rw [File.textRead, hread]; rfl⟩
  unfold firstOffsets
  cases hcall : (f.funcInstructions d {} name).1 with
  | panic =>
    have hrets : f.funcRetOffsets d {} name = (.panic, _) := File.orReturn_of_panic hcall
    rw [hrets, File.funcInstructions_panic hsec hc hcall]
    rfl
  | returned v err =>
    cases err with
    | some err =>
      have hrets : f.funcRetOffsets d {} name = (.returned [] (some err), _) :=
        File.orReturn_of_failed hcall
      rw [hrets, (File.funcInstructions_failed hsec hc hcall).resolve_right Bool.noConfusion]
      rfl
    | none =>
      obtain ⟨insts, addr, offset⟩ := v
      obtain ⟨hbody, -, sym', hsym', rfl⟩ := File.funcInstructions_returned hsec hc hcall
      obtain rfl := Option.some.inj (hsym.symm.trans hsym')
      rw [File.funcRetOffsets_eq hcall, hbody]
      rfl

/-- The probes of a function in the binary are those of its body. -/
theorem tracedFunc_fileBinary (fetches : Fetches) {sym : FileSymbol}
    (hsym : f.symbolOf name = some sym) :
    ((fileBinary f sec d functionVariables symbols).tracedFunc opts fetches name
      sym.toSymbol).probes = ((f.body sec d name).map fun insts =>
        (traced f opts fetches (name, insts)).probes).getD [] := by
  have hrets : ((fileBinary f sec d functionVariables symbols).tracedFunc opts fetches name
      sym.toSymbol).rets = ((f.body sec d name).map fun insts =>
        (Elf.retPositions insts 0).map UInt64.ofNat).getD [] := by
    show ((firstOffsets f d name).getD []).map (fun offset => offset - fileOffset sec sym.value) = _
    rw [firstOffsets_eq hsec hread hsym]
    cases f.body sec d name with
    | none => rfl
    | some insts =>
      rw [Option.map_some, Option.getD_some, List.map_map]
      apply List.map_congr_left
      intro p _
      show fileOffset sec sym.value + UInt64.ofNat p - fileOffset sec sym.value = UInt64.ofNat p
      rw [UInt64.add_comm, UInt64.add_sub_cancel]
  cases hbody : f.body sec d name with
  | none =>
    rw [hbody] at hrets
    rw [TracedFunc.probes, hrets]
    rfl
  | some insts =>
    rw [hbody] at hrets
    have hsame : (fileBinary f sec d functionVariables symbols).tracedFunc opts fetches name
        sym.toSymbol = traced f opts fetches (name, insts) := by
      unfold traced
      rw [hsym, Option.getD_some, ← show _ = (Elf.retPositions insts 0).map UInt64.ofNat from hrets]
      rfl
    rw [hsame]
    rfl

/-- The functions of the binary have the probes of the bodies. -/
theorem probes_fileBinary (fetches : Fetches) {names : List String}
    (hnames : ∀ name ∈ names, ∃ sym, f.symbolOf name = some sym) :
    (names.map fun name => (fileBinary f sec d functionVariables symbols).tracedFunc opts fetches
      name ((f.symbolOf name).getD noSymbol).toSymbol).flatMap TracedFunc.probes =
        ((f.bodies sec d true names).map (traced f opts fetches)).flatMap TracedFunc.probes := by
  induction names with
  | nil => rfl
  | cons name names ih =>
    obtain ⟨⟨sym, hsym⟩, hnames⟩ := List.forall_mem_cons.mp hnames
    rw [List.map_cons, List.flatMap_cons, ih hnames, hsym, Option.getD_some,
      tracedFunc_fileBinary hsec hread fetches hsym]
    cases hbody : f.body sec d name with
    | none =>
      rw [File.bodies_skip (.inl hbody)]
      rfl
    | some insts =>
      rw [File.bodies_take hbody]
      rfl

/-- The probes that `Parse` returns of a file, without their offsets in the file, are those that
it returns of the binary. -/
theorem parseFile_refines (hsyms : f.symbols = .ok symbols) (calls : List Elf.Call)
    {uprobes : List FileProbe}
    (h : (parseFile f d functionVariables opts (Lib.Memo.after f.ask {} calls)).1 =
      .returned uprobes none) :
    (fileBinary f sec d functionVariables symbols).parse opts =
      .ok (uprobes.map FileProbe.toUprobe) := by
  have hstart : f.ReadAs sec true (Lib.Memo.after f.ask {} calls) := by
    refine ⟨File.after_tablesOk f calls, ?_⟩
    rw [File.textRead, hread]
    rfl
  obtain ⟨fetchArgs, retFetchArgs, goexit, hargs, hrets, hgoexit, rfl⟩ :=
    parseFile_probes hsec hstart h
  have hlookup : ∀ {name : String} {sym : FileSymbol}, f.symbolOf name = some sym →
      (fileBinary f sec d functionVariables symbols).lookup name = .ok sym.toSymbol := by
    intro name sym hsym
    rw [Binary.lookup, resolveSymbol_fileBinary hsyms, hsym]
    rfl
  have hattached : (fileBinary f sec d functionVariables symbols).attachFuncs opts =
      attached f opts := attachFuncs_fileBinary hsyms
  have hfilled : fillAutoFetch (fileBinary f sec d functionVariables symbols) opts
      { fetchArgs := rulesOf fetchArgs, retFetchArgs := rulesOf retFetchArgs } =
        filled f functionVariables opts
          { fetchArgs := rulesOf fetchArgs, retFetchArgs := rulesOf retFetchArgs } := by
    rw [fillAutoFetch, hattached]
    rfl
  have hfound : ∀ name ∈ (fileBinary f sec d functionVariables symbols).attachFuncs opts,
      (fileBinary f sec d functionVariables symbols).lookup name =
        .ok ((f.symbolOf name).getD noSymbol).toSymbol := by
    intro name hname
    rw [hattached] at hname
    obtain ⟨sym, hsym⟩ := attached_symbol hname
    rw [hlookup hsym, hsym]
    rfl
  rw [parse_of_lookups hargs hrets (hlookup hgoexit) hfound, hattached, hfilled, parse,
    probes_fileBinary hsec hread _ fun name hname => attached_symbol hname, List.map_map]
  exact congrArg Except.ok (List.map_id _).symm

end

end

end

/-- The file with two functions, before any call. -/
theorem parseFile_refines_helpers :
    let f := threeFuncs "helper" "helper.func1"
    ∃ symbols, f.symbols = .ok symbols ∧
      ∃ uprobes, (parseFile f Elf.sampleDecoder (fun _ => none) helperOpts {}).1 =
          .returned uprobes none ∧ uprobes.length = 5 ∧
        (fileBinary f threeRets Elf.sampleDecoder (fun _ => none) symbols).parse helperOpts =
          .ok (uprobes.map FileProbe.toUprobe) := by
  intro f
  have hfive : (probesOf (parseFile f Elf.sampleDecoder (fun _ => none) helperOpts {}).1).map
      (List.countP fun _ => true) = some 5 := by decide +kernel
  obtain ⟨uprobes, hreturned, hcount⟩ := returned_of_probes hfive
  rw [List.countP_true] at hcount
  exact ⟨_, rfl, uprobes, hreturned, hcount, parseFile_refines rfl rfl rfl [] hreturned⟩

end GoFtrace.Tracing
