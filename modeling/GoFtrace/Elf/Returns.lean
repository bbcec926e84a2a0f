import GoFtrace.Elf.Asm
import GoFtrace.Elf.Text

/-!
# RET instructions of a file

`FuncOffset`, `FuncInstructions` and `FuncRetOffsets` of the package `elf`, on a file and its
cache. Each of them looks the function up by its name.

* `mem_retPositions`: a RET is as far from the start as the instructions before it are long.
* `extent_symbol`: the start of a function is the value of its symbol.
* `funcInstructions_returned`: the instructions that are returned are those of the body.
* `funcInstructions_failed`: where there are none.
-/

namespace GoFtrace.Elf

/-! ## Positions of RET instructions -/

/-- A position is the length of the instructions before a RET. -/
theorem mem_retPositions {insts : List Inst} {pos p : Nat} :
    p ∈ retPositions insts pos ↔ ∃ k inst, insts[k]? = some inst ∧ inst.op = .ret ∧
      p = pos + ((insts.take k).map Inst.len).sum := by
  induction insts generalizing pos with
  | nil => simp [retPositions]
  | cons i insts ih =>
    rw [mem_retPositions_cons, ih]
    constructor
    · rintro (⟨rfl, hop⟩ | ⟨k, inst, hk, hop, rfl⟩)
      · exact ⟨0, i, rfl, hop, rfl⟩
      · refine ⟨k + 1, inst, hk, hop, ?_⟩
        rw [List.take_succ_cons, List.map_cons, List.sum_cons, Nat.add_assoc]
    · rintro ⟨k, inst, hk, hop, rfl⟩
      cases k with
      | zero =>
        obtain rfl : i = inst := Option.some.inj hk
        exact .inl ⟨rfl, hop⟩
      | succ k =>
        refine .inr ⟨k, inst, hk, hop, ?_⟩
        rw [List.take_succ_cons, List.map_cons, List.sum_cons, Nat.add_assoc]

theorem nodup_retPositions {insts : List Inst} (hpos : ∀ inst ∈ insts, 0 < inst.len) (pos : Nat) :
    (retPositions insts pos).Nodup := by
  induction insts generalizing pos with
  | nil => exact List.nodup_nil
  | cons i insts ih =>
    have hrest : ∀ inst ∈ insts, 0 < inst.len := fun inst hinst =>
      hpos inst (List.mem_cons_of_mem _ hinst)
    have hnodup := ih hrest (pos + i.len)
    rw [retPositions]
    split
    · refine List.nodup_cons.mpr ⟨fun hmem => ?_, hnodup⟩
      have hle := (retPositions_bounds hrest hmem).1
      have hlen := hpos i List.mem_cons_self
      omega
    · exact hnodup

section
variable {τ : Type}

theorem TextSection.cut_returned {sec : TextSection} {range : UInt64 × UInt64} {raw : List UInt8}
    {addr offset : UInt64} (h : sec.cut range = .returned (raw, addr, offset) none) :
    addr = range.1 ∧ offset = range.1 - sec.addr + sec.offset := by
  unfold TextSection.cut at h
  dsimp only at h
  split at h
  · cases h
  · obtain ⟨-, haddr, hoffset⟩ := by simpa using (Result.returned.inj h).1
    exact ⟨haddr.symm, hoffset.symm⟩

/-- The instructions that are decoded from a range of the section; `none` where
`FuncRawInstructions` does not return its bytes. -/
def TextSection.body (sec : TextSection) (d : Decoder) (range : UInt64 × UInt64) :
    Option (List Inst) :=
  if range.1 < sec.addr ∨ UInt64.ofNat sec.bytes.length + sec.addr < range.2 then none
  else
    match sec.cut range with
    | .returned (raw, _, _) none => some (resolveInstructions d raw)
    | _ => none

namespace File

variable (f : File τ)

/-- `FuncOffset`. -/
def funcOffset (c : Cache τ) (name : String) : Result UInt64 × Cache τ :=
  orReturn (f.resolveSymbol c name) (fun err => .returned 0 (some err)) fun sym c =>
    match f.text with
    | none => (.panic, c)
    | some sec => (.returned ((sym.map (·.value)).getD 0 - sec.addr + sec.offset) none, c)

/-- `FuncInstructions`. -/
def funcInstructions (d : Decoder) (c : Cache τ) (name : String) :
    Result (List Inst × UInt64 × UInt64) × Cache τ :=
  orReturn (f.funcRawInstructions c name) (fun err => .returned ([], 0, 0) (some err))
    fun (raw, addr, offset) c => (.returned (resolveInstructions d raw, addr, offset) none, c)

/-- `FuncRetOffsets`. -/
def funcRetOffsets (d : Decoder) (c : Cache τ) (name : String) : Result (List UInt64) × Cache τ :=
  orReturn (f.funcInstructions d c name) (fun err => .returned [] (some err))
    fun (insts, _, offset) c => (.returned (retOffsets insts offset) none, c)

/-! ## Bodies -/

/-- The symbol that a name stands for. -/
def symbolOf (name : String) : Option FileSymbol :=
  match f.symbols with
  | .error _ => none
  | .ok symbols => (f.table symbols).2 name

/-- The instructions of a function, as they are decoded from its bytes. -/
def body (sec : TextSection) (d : Decoder) (name : String) : Option (List Inst) :=
  (f.extent name).bind fun e => sec.body d e.range

/-- The bodies of the functions that are looked up one after the other. Where `.text` is not read
yet and cannot be read, the first one that has a range is lost. -/
def bodies (sec : TextSection) (d : Decoder) : Bool → List String → List (String × List Inst)
  | _, [] => []
  | read, name :: names =>
    let rest := bodies sec d (read || (f.extent name).isSome) names
    match f.body sec d name with
    | some insts => if read then (name, insts) :: rest else rest
    | none => rest

/-- Whether `Text` returns the bytes. -/
def textRead (sec : TextSection) (c : Cache τ) : Bool := sec.readError.isNone || c.textBytes.isSome

variable {f} {sec : TextSection} {d : Decoder} {name : String} {insts : List Inst}

/-- A subprogram DIE agrees with the symbol of its name. -/
theorem dieLoop_symbol {symnames : SymbolMap} (entries : List (Entry τ)) (dies : DieMap τ)
    (hdies : ∀ name die, dies name = some die →
      ∃ sym, symnames name = some sym ∧ die.lowpc = some sym.value) :
    ∀ name die, dieLoop symnames entries dies name = some die →
      ∃ sym, symnames name = some sym ∧ die.lowpc = some sym.value := by
  induction entries generalizing dies with
  | nil => exact hdies
  | cons die rest ih =>
    rw [dieLoop]
    split
    · cases hname : die.name with
      | none => exact ih dies hdies
      | some name =>
        cases hlow : die.lowpc with
        | none => exact ih dies hdies
        | some lowpc =>
          cases die.highpc with
          | none => exact ih dies hdies
          | some highpc =>
            dsimp only
            cases hsym : symnames name with
            | none => exact ih dies hdies
            | some sym =>
              dsimp only
              split
              · rename_i hvalue
                refine ih _ fun name' die' h => ?_
                by_cases heq : name' = name
                · subst heq
                  rw [Function.update_self] at h
                  obtain rfl := Option.some.inj h
                  exact ⟨sym, hsym, by rw [hlow, hvalue]⟩
                · rw [Function.update_of_ne heq] at h
                  exact hdies name' die' h
              · exact ih dies hdies
    · exact ih dies hdies

/-- The start of a function is the value of its symbol. -/
theorem extent_symbol {e : Extent} (he : f.extent name = some e) :
    ∃ sym, f.symbolOf name = some sym ∧ e.range.1 = sym.value := by
  unfold extent at he
  unfold symbolOf
  cases hsyms : f.symbols with
  | error err => rw [hsyms] at he; cases he
  | ok symbols =>
    simp only [hsyms] at he
    cases hdie : f.dies symbols name with
    | some die =>
      rw [hdie] at he
      obtain rfl := Option.some.inj he
      obtain ⟨sym, hsym, hlow⟩ := dieLoop_symbol f.entries (fun _ => none)
        (fun _ _ h => by cases h) name die hdie
      exact ⟨sym, hsym, by rw [Extent.range, hlow]; rfl⟩
    | none =>
      rw [hdie] at he
      obtain ⟨sym, hsym, rfl⟩ := Option.map_eq_some_iff.mp he
      exact ⟨sym, (Option.filter_eq_some_iff.mp hsym).1, rfl⟩

theorem body_cut (h : f.body sec d name = some insts) : ∃ e raw, f.extent name = some e ∧
    sec.cut e.range = .returned (raw, e.range.1, e.range.1 - sec.addr + sec.offset) none ∧
      insts = resolveInstructions d raw := by
  obtain ⟨e, he, hbody⟩ := Option.bind_eq_some_iff.mp h
  unfold TextSection.body at hbody
  split at hbody
  · cases hbody
  · split at hbody
    · rename_i raw addr offset hcut
      obtain ⟨rfl, rfl⟩ := TextSection.cut_returned hcut
      exact ⟨e, raw, he, hcut, (Option.some.inj hbody).symm⟩
    · cases hbody

/-- No length of a body is lost in a word. -/
theorem body_bounds (h : f.body sec d name = some insts) :
    (∀ inst ∈ insts, 0 < inst.len) ∧ (insts.map Inst.len).sum < 2 ^ 64 := by
  obtain ⟨e, raw, -, hcut, rfl⟩ := body_cut h
  obtain ⟨hpos, hsum⟩ := resolveInstructions_cover d _ raw (Nat.le_refl _)
  refine ⟨hpos, ?_⟩
  unfold TextSection.cut at hcut
  dsimp only at hcut
  split at hcut
  · cases hcut
  · have hraw := (Prod.mk.inj (Result.returned.inj hcut).1).1
    have hlt := UInt64.toNat_lt (e.range.2 - sec.addr)
    rw [hsum, ← hraw, List.length_drop, List.length_take]
    omega

theorem toNat_position (h : f.body sec d name = some insts) {p : Nat}
    (hp : p ∈ retPositions insts 0) : (UInt64.ofNat p).toNat = p := by
  obtain ⟨hpos, hsum⟩ := body_bounds h
  have hlt := (retPositions_bounds hpos hp).2
  rw [UInt64.toNat_ofNat', Nat.mod_eq_of_lt (by omega)]

theorem bodies_skip {names : List String} {read : Bool}
    (h : f.body sec d name = none ∨ read = false) : f.bodies sec d read (name :: names) =
      f.bodies sec d (read || (f.extent name).isSome) names := by
  rw [bodies]
  rcases h with hbody | rfl
  · rw [hbody]
  · cases f.body sec d name with
    | none => rfl
    | some insts => rfl

theorem bodies_take {names : List String} (h : f.body sec d name = some insts) :
    f.bodies sec d true (name :: names) =
      (name, insts) :: f.bodies sec d (true || (f.extent name).isSome) names := by
  rw [bodies, h]
  rfl

theorem mem_bodies {names : List String} {read : Bool} {b : String × List Inst}
    (h : b ∈ f.bodies sec d read names) : f.body sec d b.1 = some b.2 := by
  induction names generalizing read with
  | nil => cases h
  | cons name names ih =>
    rw [bodies] at h
    cases hbody : f.body sec d name with
    | none =>
      rw [hbody] at h
      exact ih h
    | some insts =>
      rw [hbody] at h
      dsimp only at h
      split at h
      · rcases List.mem_cons.mp h with rfl | h
        · exact hbody
        · exact ih h
      · exact ih h

/-! ## Calls -/

section
variable {α β : Type} {call : Result α × Cache τ} {fail : String → Result β}
  {next : α → Cache τ → Result β × Cache τ}

/-- A call that goes on and returns has gone on with a value. -/
theorem of_orReturn {v : β} (hfail : ∀ err, fail err ≠ .returned v none)
    (h : (Elf.orReturn call fail next).1 = .returned v none) :
    ∃ w, call.1 = .returned w none ∧ (next w call.2).1 = .returned v none := by
  obtain ⟨r, c⟩ := call
  match r with
  | .panic => cases h
  | .returned w (some err) => exact absurd h (hfail err)
  | .returned w none => exact ⟨w, rfl, h⟩

theorem orReturn_of_panic (h : call.1 = .panic) :
    Elf.orReturn call fail next = (.panic, call.2) := by
  obtain ⟨r, c⟩ := call
  obtain rfl : r = .panic := h
  rfl

end

/-- The tables are those of the file, and whether `Text` returns the bytes. -/
structure ReadAs (f : File τ) (sec : TextSection) (read : Bool) (c : Cache τ) : Prop where
  tables : f.TablesOk c
  text : textRead sec c = read

section
variable {read : Bool} {c : Cache τ}

theorem ReadAs.of_slot {α : Type} {g : Cache τ → Result α × Cache τ} (hg : Keeps f.TablesOk g)
    (hslot : ∀ slot, Keeps (fun c => c.textBytes = slot) g) : Keeps (f.ReadAs sec read) g := by
  intro c hc
  refine ⟨hg c hc.tables, ?_⟩
  rw [← hc.text, textRead, textRead, hslot c.textBytes c rfl]

theorem symbolTable_readAs : Keeps (f.ReadAs sec read) f.symbolTable :=
  ReadAs.of_slot symbolTable_keeps symbolTable_textBytes

theorem dies_readAs : Keeps (f.ReadAs sec read) f.nonInlinedSubprogramDIEs :=
  ReadAs.of_slot dies_keeps dies_textBytes

theorem funcOffset_keeps {Inv : Cache τ → Prop} (hsyms : Keeps Inv f.symbolTable)
    (name : String) : Keeps Inv fun c => f.funcOffset c name := by
  refine (resolveSymbol_keeps hsyms name).orReturn fun sym => ?_
  cases f.text with
  | none => exact Keeps.pure _
  | some sec => exact Keeps.pure _

/-- The slot of `.text` is filled where a body is looked for, also by a failed read. -/
theorem textBytes_filled (hsec : f.text = some sec) (c : Cache τ) :
    textRead sec (f.textBytes c).2 = true := by
  have hslot : (f.textBytes c).2.textBytes.isSome = true := by
    unfold textBytes
    cases hbytes : c.textBytes with
    | some bytes => exact congrArg Option.isSome hbytes
    | none =>
      dsimp only
      rw [hsec]
      dsimp only
      cases sec.readError with
      | some err => rfl
      | none => rfl
  rw [textRead, hslot, Bool.or_true]

theorem funcRawInstructions_textRead (hsec : f.text = some sec) (name : String)
    (hc : f.TablesOk c) : textRead sec (f.funcRawInstructions c name).2 =
      (textRead sec c || (f.extent name).isSome) := by
  have hslot : textRead sec (f.funcPcRange c name).2 = textRead sec c := by
    rw [textRead, textRead, funcPcRange_textBytes]
  unfold funcRawInstructions
  dsimp only
  cases he : f.extent name with
  | none =>
    obtain ⟨v, err, hrange⟩ := funcPcRange_fails he
    rw [orReturn_of_failed (hrange c hc).1, hslot]
    exact (Bool.or_false _).symm
  | some e =>
    rw [orReturn_of_returned (funcPcRange_returns he c hc).1, Option.isSome_some, Bool.or_true]
    have hfilled := textBytes_filled hsec (f.funcPcRange c name).2
    dsimp only
    generalize f.textBytes (f.funcPcRange c name).2 = call at hfilled ⊢
    match call with
    | (.panic, c') => exact hfilled
    | (.returned _ (some err), c') => exact hfilled
    | (.returned bytes none, c') =>
      rw [hsec]
      dsimp only [Elf.orReturn]
      split
      · exact hfilled
      split
      · exact hfilled
      · exact hfilled

theorem funcInstructions_cache (d : Decoder) (c : Cache τ) (name : String) :
    (f.funcInstructions d c name).2 = (f.funcRawInstructions c name).2 := by
  unfold funcInstructions Elf.orReturn
  generalize f.funcRawInstructions c name = call
  match call with
  | (.panic, c') => rfl
  | (.returned _ (some err), c') => rfl
  | (.returned raw none, c') => rfl

theorem funcInstructions_readAs (hsec : f.text = some sec) (d : Decoder) (name : String)
    (hc : f.ReadAs sec read c) :
    f.ReadAs sec (read || (f.extent name).isSome) (f.funcInstructions d c name).2 := by
  rw [funcInstructions_cache]
  refine ⟨funcRawInstructions_keeps symbolTable_keeps dies_keeps textBytes_keeps name c hc.tables,
    ?_⟩
  rw [funcRawInstructions_textRead hsec name hc.tables, hc.text]

/-! ## Instructions of a function -/

theorem body_of_rejects (h : ∀ e, f.extent name = some e → sec.rejects e.range) :
    f.body sec d name = none := by
  unfold body
  cases he : f.extent name with
  | none => rfl
  | some e => exact if_pos (h e he)

/-- The instructions that are returned are those of the body, and their offset is that of the
symbol. -/
theorem funcInstructions_returned (hsec : f.text = some sec) (hc : f.ReadAs sec read c)
    {addr offset : UInt64}
    (h : (f.funcInstructions d c name).1 = .returned (insts, addr, offset) none) :
    f.body sec d name = some insts ∧ read = true ∧
      ∃ sym, f.symbolOf name = some sym ∧ offset = sym.value - sec.addr + sec.offset := by
  obtain ⟨⟨raw, addr', offset'⟩, hraw, hnext⟩ := of_orReturn (by simp) h
  obtain ⟨rfl, rfl, rfl⟩ := by simpa using hnext
  have hstep := funcRawInstructions_step hsec name hc.tables
  rw [hraw] at hstep
  generalize hr : Result.returned (raw, addr', offset') none = r at hstep
  cases hstep with
  | fails why v err => cases hr
  | @cut e he hread hpass =>
    have hcut := hr.symm
    obtain ⟨rfl, rfl⟩ := TextSection.cut_returned hcut
    obtain ⟨sym, hsym, hvalue⟩ := extent_symbol he
    refine ⟨?_, ?_, sym, hsym, by rw [hvalue]⟩
    · rw [body, he, Option.bind_some, TextSection.body, if_neg (show ¬ (_ ∨ _) from hpass), hcut]
    · rw [← hc.text]
      simpa [textRead, Option.isSome_iff_ne_none] using hread

/-- No instructions are returned where there is no body, or `.text` is not read. -/
theorem funcInstructions_failed (hsec : f.text = some sec) (hc : f.ReadAs sec read c)
    {v : List Inst × UInt64 × UInt64} {err : String}
    (h : (f.funcInstructions d c name).1 = .returned v (some err)) :
    f.body sec d name = none ∨ read = false := by
  have hstep := funcRawInstructions_step hsec name hc.tables
  generalize hr : (f.funcRawInstructions c name).1 = r at hstep
  cases hstep with
  | fails why v err =>
    cases read with
    | false => exact .inr rfl
    | true =>
      refine .inl (body_of_rejects fun e he => why e he ?_)
      simpa [textRead, Option.isSome_iff_ne_none] using hc.text
  | @cut e he hread hpass =>
    exfalso
    generalize hcut : sec.cut e.range = cut at hr
    unfold TextSection.cut at hcut
    dsimp only at hcut
    split at hcut
    · subst hcut
      have hpanic : f.funcInstructions d c name = (.panic, _) := orReturn_of_panic hr
      rw [hpanic] at h
      cases h
    · subst hcut
      have hreturned : f.funcInstructions d c name = (.returned _ none, _) :=
        orReturn_of_returned hr
      rw [hreturned] at h
      cases h

/-- There is no body either where a slice bound is out of range. -/
theorem funcInstructions_panic (hsec : f.text = some sec) (hc : f.ReadAs sec read c)
    (h : (f.funcInstructions d c name).1 = .panic) : f.body sec d name = none := by
  have hstep := funcRawInstructions_step hsec name hc.tables
  generalize hr : (f.funcRawInstructions c name).1 = r at hstep
  cases hstep with
  | fails why v err =>
    have hfailed : f.funcInstructions d c name = (.returned _ (some err), _) :=
      orReturn_of_failed hr
    rw [hfailed] at h
    cases h
  | @cut e he hread hpass =>
    generalize hcut : sec.cut e.range = cut at hr
    match cut with
    | .panic => rw [body, he, Option.bind_some, TextSection.body, hcut, ite_self]
    | .returned v (some err) => rw [body, he, Option.bind_some, TextSection.body, hcut, ite_self]
    | .returned v none =>
      have hreturned : f.funcInstructions d c name = (.returned _ none, _) :=
        orReturn_of_returned hr
      rw [hreturned] at h
      cases h

end

/-- What the offsets of the RET instructions come to. -/
theorem funcRetOffsets_eq {c : Cache τ} {addr offset : UInt64}
    (h : (f.funcInstructions d c name).1 = .returned (insts, addr, offset) none) :
    f.funcRetOffsets d c name =
      (.returned ((retPositions insts 0).map fun p => offset + UInt64.ofNat p) none,
        (f.funcInstructions d c name).2) := by
  have hzero : offset + UInt64.ofNat 0 = offset := UInt64.add_zero offset
  rw [← retOffsets_eq, hzero]
  exact orReturn_of_returned h

end File

end

end GoFtrace.Elf
