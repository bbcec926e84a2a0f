import GoFtrace.Elf.File
import GoFtrace.Lib.Record

/-!
# Where the goroutine id is

`FindGOffset` of `elf/tls.go` and `FindGoidOffset` of `elf/dwarf.go`: the offset of `runtime.g`
from the thread pointer, and the offset of `goid` in it.

* `findGOffset_slot`: the slot in the thread-local block that the loader places below the thread
  pointer.
* `goidLoop_own`: the offset is that of the struct's own member, where it has one.
-/

namespace GoFtrace.Elf

/-! ## The thread-local block -/

/-- `elf.PT_TLS`. -/
def ptTLS : UInt32 := 7

/-- The fields of `elf.ProgHeader` that are read. -/
structure Prog where
  type : UInt32
  vaddr : UInt64
  memsz : UInt64
  align : UInt64
  deriving DecidableEq, Repr

/-- `Prog`. -/
def prog (progs : List Prog) (typ : UInt32) : Option Prog := progs.find? fun p => p.type == typ

namespace Prog

/-- `memsz` of `FindGOffset`. -/
def blockSize (tls : Prog) : UInt64 :=
  tls.memsz + ((-tls.vaddr - tls.memsz) &&& (tls.align - 1))

/-- The loader's place for the block of the executable: the last address from which the block
ends at or below the thread pointer and which is aligned as the segment is. -/
structure PlacedAt (tls : Prog) (fs start : Nat) : Prop where
  below : start + tls.memsz.toNat ≤ fs
  aligned : start % tls.align.toNat = tls.vaddr.toNat % tls.align.toNat
  last : ∀ s, s + tls.memsz.toNat ≤ fs →
    s % tls.align.toNat = tls.vaddr.toNat % tls.align.toNat → s ≤ start

end Prog

section
variable {τ : Type}

/-- The offset that `FindGOffset` computes from the symbols and the segments. -/
def gOffset (symnames : SymbolMap) (progs : List Prog) : Int64 :=
  match symnames "runtime.tlsg", prog progs ptTLS with
  | some tlsg, some tls => (~~~tls.blockSize + 1 + tlsg.value).toInt64
  | _, _ => -8

/-- `FindGOffset`. -/
def File.findGOffset (f : File τ) (progs : List Prog) (c : Cache τ) : Result Int64 × Cache τ :=
  orReturn (f.symbolTable c) (fun err => .returned 0 (some err)) fun table c =>
    (.returned (gOffset table.2 progs) none, c)

end

theorem neg_sub_toNat (v m : UInt64) :
    (v.toNat + m.toNat + (-v - m).toNat) % 2 ^ 64 = 0 := by
  have h : v + m + (-v - m) = 0 := by grind
  have h' := congrArg UInt64.toNat h
  rwa [UInt64.toNat_add, UInt64.toNat_add, Nat.mod_add_mod] at h'

/-- The padding is the least one that aligns the end of the segment. -/
theorem Prog.blockSize_toNat {tls : Prog} {k : Nat} (halign : tls.align.toNat = 2 ^ k) :
    ∃ pad < tls.align.toNat, tls.blockSize.toNat = (tls.memsz.toNat + pad) % 2 ^ 64 ∧
      (tls.vaddr.toNat + tls.memsz.toNat + pad) % tls.align.toNat = 0 := by
  have hk : k < 64 := by
    have hlt := tls.align.toNat_lt
    rw [halign] at hlt
    exact (Nat.pow_lt_pow_iff_right (by decide)).mp hlt
  have hmask : (tls.align - 1).toNat = 2 ^ k - 1 := by
    rw [UInt64.toNat_sub_of_le _ _ (UInt64.le_iff_toNat_le.mpr ?_), halign]
    · rfl
    · rw [halign]
      exact Nat.one_le_two_pow
  have hpad : ((-tls.vaddr - tls.memsz) &&& (tls.align - 1)).toNat =
      (-tls.vaddr - tls.memsz).toNat % 2 ^ k := by
    rw [UInt64.toNat_and, hmask, Nat.and_two_pow_sub_one_eq_mod]
  have hlt := Nat.mod_lt (-tls.vaddr - tls.memsz).toNat (Nat.two_pow_pos k)
  rw [halign]
  refine ⟨_, hlt, ?_, ?_⟩
  · rw [blockSize, UInt64.toNat_add, hpad]
  · have hzero := neg_sub_toNat tls.vaddr tls.memsz
    have hdvd : 2 ^ k ∣ 2 ^ 64 := Nat.pow_dvd_pow 2 (Nat.le_of_lt hk)
    rw [Nat.add_mod_mod]
    exact Nat.mod_eq_zero_of_dvd (hdvd.trans (Nat.dvd_of_mod_eq_zero hzero))

/-- A padding below the alignment is the least one. -/
theorem pad_le {a pad gap align : Nat} (hpad : pad < align) (h : (a + pad) % align = 0)
    (hgap : (a + gap) % align = 0) : pad ≤ gap := by
  have hmod : pad ≡ gap [MOD align] := Nat.ModEq.add_left_cancel' a (h.trans hgap.symm)
  have heq : pad = gap % align := (Nat.mod_eq_of_lt hpad).symm.trans hmod
  exact heq.trans_le (Nat.mod_le gap align)

/-- The block of the loader is the one that `FindGOffset` computes with. -/
theorem Prog.PlacedAt.start_add {tls : Prog} {fs start k : Nat}
    (hplaced : tls.PlacedAt fs start) (halign : tls.align.toNat = 2 ^ k) (hlt : fs < 2 ^ 64)
    (hfs : fs % tls.align.toNat = 0) : start + tls.blockSize.toNat = fs := by
  obtain ⟨pad, hpad, hblock, hzero⟩ := blockSize_toNat halign
  have hbelow := hplaced.below
  obtain ⟨gap, rfl⟩ := Nat.exists_eq_add_of_le hbelow
  -- the gap behind the block pads as well, and no shorter gap does
  have hgap : (tls.vaddr.toNat + tls.memsz.toNat + gap) % tls.align.toNat = 0 := by
    have hmod : start + (tls.memsz.toNat + gap) ≡ tls.vaddr.toNat + (tls.memsz.toNat + gap)
        [MOD tls.align.toNat] := Nat.ModEq.add_right _ hplaced.aligned
    rw [← Nat.add_assoc, ← Nat.add_assoc] at hmod
    exact Eq.trans hmod.symm hfs
  have hle := pad_le hpad hzero hgap
  have hlast := hplaced.last (start + (gap - pad)) (by omega) (by
    have hsum : start + (gap - pad) + (tls.memsz.toNat + pad) = start + tls.memsz.toNat + gap := by
      omega
    have hmod : start + (gap - pad) + (tls.memsz.toNat + pad) ≡
        tls.vaddr.toNat + (tls.memsz.toNat + pad) [MOD tls.align.toNat] := by
      rw [hsum, ← Nat.add_assoc]
      exact Eq.trans hfs hzero.symm
    exact Nat.ModEq.add_right_cancel' _ hmod)
  rw [hblock, Nat.mod_eq_of_lt (by omega)]
  omega

/-- The slot in which a thread keeps its `runtime.g`. Where the linker has emitted
`runtime.tlsg`, it is in the thread-local block; otherwise it is the word below the thread
pointer. -/
def GSlot (symnames : SymbolMap) (progs : List Prog) (fs slot : UInt64) : Prop :=
  match symnames "runtime.tlsg", prog progs ptTLS with
  | some tlsg, some tls => ∃ start k, tls.align.toNat = 2 ^ k ∧ fs.toNat % tls.align.toNat = 0 ∧
      tls.PlacedAt fs.toNat start ∧ slot = UInt64.ofNat start + tlsg.value
  | _, _ => slot = fs - 8

theorem gOffset_slot {symnames : SymbolMap} {progs : List Prog} {fs slot : UInt64}
    (h : GSlot symnames progs fs slot) : fs + (gOffset symnames progs).toUInt64 = slot := by
  unfold GSlot at h
  unfold gOffset
  split
  · rename_i tlsg tls htlsg htls
    rw [htlsg, htls] at h
    obtain ⟨start, k, halign, hfs, hplaced, rfl⟩ := h
    have hstart := hplaced.start_add halign fs.toNat_lt hfs
    have hsum : UInt64.ofNat start + tls.blockSize = fs := by
      have hofNat := congrArg UInt64.ofNat hstart
      rwa [UInt64.ofNat_add, UInt64.ofNat_toNat, UInt64.ofNat_toNat] at hofNat
    rw [UInt64.toUInt64_toInt64, ← UInt64.neg_eq_not_add, ← hsum]
    grind
  · rename_i hnone
    split at h
    · rename_i tlsg tls htlsg htls
      exact absurd htls (hnone tlsg tls htlsg)
    · rw [h]
      show fs + -8 = fs - 8
      grind

/-! ## The member -/

/-- `dwarf.Tag`, as far as `FindGoidOffset` compares it. -/
inductive TypeTag where
  | structType | member | other
  deriving DecidableEq, Repr

/-- `DW_AT_data_member_location`: a constant, or a location expression. -/
inductive MemberLoc where
  | constant (v : Int64)
  | expression
  deriving DecidableEq, Repr

/-- `dwarf.Entry` with the attributes that `FindGoidOffset` reads. -/
structure TypeDie where
  tag : TypeTag
  name : Option String := none
  dataMemberLoc : Option MemberLoc := none
  deriving DecidableEq, Repr

/-- The loop of `FindGoidOffset`. -/
def goidLoop : List TypeDie → Bool → Result Int64
  | [], _ => .returned 0 (some "goid not found")
  | die :: rest, foundRuntimeG =>
    match die.tag with
    | .structType =>
      if die.name = some "runtime.g" then goidLoop rest true else goidLoop rest foundRuntimeG
    | .member =>
      if foundRuntimeG && die.name = some "goid" then
        match die.dataMemberLoc with
        | none => goidLoop rest foundRuntimeG
        | some (.constant v) => .returned v none
        | some .expression => .panic
      else goidLoop rest foundRuntimeG
    | .other => goidLoop rest foundRuntimeG

/-- `FindGoidOffset`, on the entries of `.debug_info` in their order. -/
def findGoidOffset (dies : List TypeDie) : Result Int64 := goidLoop dies false

/-- A struct `runtime.g`. -/
def TypeDie.isG (die : TypeDie) : Bool := die.tag = .structType && die.name = some "runtime.g"

/-- A member `goid` with a location. -/
def TypeDie.isGoid (die : TypeDie) : Bool :=
  die.tag = .member && die.name = some "goid" && die.dataMemberLoc.isSome

/-- What is returned for a member. -/
def TypeDie.location (die : TypeDie) : Result Int64 :=
  match die.dataMemberLoc with
  | some (.constant v) => .returned v none
  | _ => .panic

theorem goidLoop_found (dies : List TypeDie) :
    goidLoop dies true =
      ((dies.find? TypeDie.isGoid).map TypeDie.location).getD
        (.returned 0 (some "goid not found")) := by
  induction dies with
  | nil => rfl
  | cons die rest ih =>
    obtain ⟨tag, name, loc⟩ := die
    have hskip : TypeDie.isGoid ⟨tag, name, loc⟩ = false →
        goidLoop rest true = ((List.find? TypeDie.isGoid (⟨tag, name, loc⟩ :: rest)).map
          TypeDie.location).getD (.returned 0 (some "goid not found")) := by
      intro h
      rw [List.find?_cons, h]
      exact ih
    cases tag with
    | structType =>
      rw [goidLoop]
      dsimp only
      rw [ite_self]
      exact hskip rfl
    | member =>
      rw [goidLoop]
      dsimp only
      by_cases hname : name = some "goid"
      · subst hname
        cases loc with
        | none => exact hskip rfl
        | some loc => cases loc <;> rfl
      · rw [if_neg (by simp [hname])]
        exact hskip (by simp [TypeDie.isGoid, hname])
    | other => exact hskip rfl

/-- Members in front of the struct are not looked at. -/
theorem goidLoop_before {before : List TypeDie} (h : ∀ die ∈ before, die.isG = false)
    (dies : List TypeDie) : goidLoop (before ++ dies) false = goidLoop dies false := by
  induction before with
  | nil => rfl
  | cons die before ih =>
    have hrest := ih fun d hd => h d (List.mem_cons_of_mem _ hd)
    have hdie := h die List.mem_cons_self
    obtain ⟨tag, name, loc⟩ := die
    rw [List.cons_append, goidLoop]
    cases tag with
    | structType =>
      have hname : name ≠ some "runtime.g" := by simpa [TypeDie.isG] using hdie
      dsimp only
      rw [if_neg hname]
      exact hrest
    | member => exact hrest
    | other => exact hrest

/-- The first struct `runtime.g` of a file, and what is around it. Its members have no entries
below them. -/
structure GStruct where
  before : List TypeDie
  members : List TypeDie
  after : List TypeDie
  first : ∀ die ∈ before, die.isG = false

/-- The entries of the file. -/
def GStruct.entries (g : GStruct) : List TypeDie :=
  g.before ++ { tag := .structType, name := some "runtime.g" } :: (g.members ++ g.after)

/-- The offset is that of the struct's own member where it has one. Otherwise it is that of a
member of another struct behind it, if there is one. -/
theorem findGoidOffset_entries (g : GStruct) :
    findGoidOffset g.entries =
      (((g.members.find? TypeDie.isGoid).or (g.after.find? TypeDie.isGoid)).map
        TypeDie.location).getD (.returned 0 (some "goid not found")) := by
  rw [findGoidOffset, GStruct.entries, goidLoop_before g.first, ← List.find?_append]
  exact goidLoop_found (g.members ++ g.after)

/-- The struct's own member. -/
def GStruct.HasGoid (g : GStruct) (offset : Int64) : Prop :=
  ∃ die, g.members.find? TypeDie.isGoid = some die ∧ die.dataMemberLoc = some (.constant offset)

theorem findGoidOffset_own {g : GStruct} {offset : Int64} (h : g.HasGoid offset) :
    findGoidOffset g.entries = .returned offset none := by
  obtain ⟨die, hdie, hloc⟩ := h
  rw [findGoidOffset_entries, hdie]
  show die.location = .returned offset none
  rw [TypeDie.location, hloc]

end GoFtrace.Elf
