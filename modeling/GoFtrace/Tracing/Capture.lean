import GoFtrace.Bpf.Chain
import GoFtrace.Uprobe.Image

/-!
# Captures

The renderer hands each capture leaf to the probe snapshot. It puts a leaf where its own
rule chain has fetched it, or nowhere; which leaves these are depends on what the object
copy holds.

* `consumeMemCaptures_eq`, `memPlaces_addr`: the captures of an object.
* `consumeRegCaptures_eq`, `ownPointers_addr`: the captures of a struct in registers.
-/

namespace GoFtrace.Tracing

open Lib (Memory word)
open Bpf (evalSteps)
open Uprobe (DType Fields structKind MemLoc ArgSpec LeafData MemSnapshot abiRegs)

/-! ## Denoted addresses -/

/-- The memory steps of rules. -/
def ruleSteps (rules : List Uprobe.ArgRule) : List Bpf.Step :=
  rules.map fun r => (r.offset, r.dereference)

/-- The value of a register; a missing name reads as zero. -/
def regValue (regs : Uprobe.Reg → UInt64) : Option Uprobe.Reg → UInt64
  | some r => regs r
  | none => 0

/-- The address of a location. -/
def locAddr (regs : Uprobe.Reg → UInt64) (m : Memory) (loc : MemLoc) : UInt64 :=
  evalSteps m (ruleSteps loc.steps) (regValue regs loc.reg)

/-- The address that the rule chain of a leaf denotes. -/
def leafAddr (regs : Uprobe.Reg → UInt64) (m : Memory) (s : ArgSpec) : UInt64 :=
  match s.fetchArg.rules with
  | .register r :: rules => evalSteps m (ruleSteps rules) (regValue regs r)
  | _ => 0

section
variable (regs : Uprobe.Reg → UInt64) (m : Memory)

theorem ofInt_zero : UInt64.ofInt 0 = 0 := rfl

@[simp] theorem leafAddr_locSpec (name : String) (loc : MemLoc) (size : Int) (typ : String) :
    leafAddr regs m (Uprobe.locSpec name loc size typ) = locAddr regs m loc := by
  cases hs : loc.steps with
  | nil =>
    have hrules : (Uprobe.locSpec name loc size typ).fetchArg.rules =
        [.register loc.reg, .stack 0 false] := by
      simp [Uprobe.locSpec, ArgSpec.fetchArg, hs]
    simp [leafAddr, hrules, locAddr, hs, ruleSteps, evalSteps, Uprobe.ArgRule.offset,
      Uprobe.ArgRule.dereference, ofInt_zero]
  | cons s steps =>
    have hrules : (Uprobe.locSpec name loc size typ).fetchArg.rules =
        .register loc.reg :: s :: steps := by
      simp [Uprobe.locSpec, ArgSpec.fetchArg, hs]
    rw [leafAddr, hrules, locAddr, hs]

@[simp] theorem leafAddr_blobAt (name : String) (loc : MemLoc) :
    leafAddr regs m (Uprobe.blobAt name loc) = locAddr regs m loc :=
  leafAddr_locSpec regs m name loc _ _

@[simp] theorem locAddr_add (loc : MemLoc) (off : Int) :
    locAddr regs m (loc.add off) = locAddr regs m loc + UInt64.ofInt off := by
  unfold MemLoc.add
  split
  · rename_i h
    rw [h, ofInt_zero, UInt64.add_zero]
  · simp [locAddr, ruleSteps, Bpf.evalSteps_append, evalSteps, Uprobe.ArgRule.offset,
      Uprobe.ArgRule.dereference]

@[simp] theorem locAddr_deref (loc : MemLoc) (off : Int) :
    locAddr regs m (loc.deref off) = m.wordAt (locAddr regs m loc + UInt64.ofInt off) := by
  simp [MemLoc.deref, locAddr, ruleSteps, Bpf.evalSteps_append, evalSteps, Uprobe.ArgRule.offset,
    Uprobe.ArgRule.dereference]

@[simp] theorem locAddr_reg (r : Option Uprobe.Reg) (nilCheck : Bool) :
    locAddr regs m { reg := r, nilCheck := nilCheck } = regValue regs r := rfl

/-! ## Puts -/

/-- The leaves are put in order, each at the address its rule chain denotes or nowhere;
only leaves with a property are put. -/
inductive Puts (ok : ArgSpec → Prop) :
    List ArgSpec → List LeafData → MemSnapshot → MemSnapshot → Prop
  | nil {snap} : Puts ok [] [] snap snap
  | skip {s specs leaf leaves snap snap'} (h : Puts ok specs leaves snap snap') :
      Puts ok (s :: specs) (leaf :: leaves) snap snap'
  | put {s specs leaf leaves snap snap'} (hok : ok s)
      (h : Puts ok specs leaves (snap.put (leafAddr regs m s) leaf) snap') :
      Puts ok (s :: specs) (leaf :: leaves) snap snap'

namespace Puts
variable {regs : Uprobe.Reg → UInt64} {m : Memory}

theorem append {ok : ArgSpec → Prop} {xs ys : List ArgSpec} {ls ms : List LeafData}
    {snap snap' snap'' : MemSnapshot} (h : Puts regs m ok xs ls snap snap')
    (h' : Puts regs m ok ys ms snap' snap'') :
    Puts regs m ok (xs ++ ys) (ls ++ ms) snap snap'' := by
  induction h with
  | nil => exact h'
  | skip _ ih => exact .skip (ih h')
  | put hok _ ih => exact .put hok (ih h')

theorem mono {ok ok' : ArgSpec → Prop} (himp : ∀ s, ok s → ok' s) {xs : List ArgSpec}
    {ls : List LeafData} {snap snap' : MemSnapshot} (h : Puts regs m ok xs ls snap snap') :
    Puts regs m ok' xs ls snap snap' := by
  induction h with
  | nil => exact .nil
  | skip _ ih => exact .skip ih
  | put hok _ ih => exact .put (himp _ hok) ih

end Puts

theorem put_zero (snap : MemSnapshot) (leaf : LeafData) : snap.put 0 leaf = snap := rfl

/-- The leaf is put where its rule chain has fetched it, or nowhere; only leaves with a
property are put. -/
def PutAt (ok : ArgSpec → Prop) (place : UInt64) (s : ArgSpec) : Prop :=
  place = 0 ∨ place = leafAddr regs m s ∧ ok s

variable {regs m} in
theorem PutAt.mono {ok ok' : ArgSpec → Prop} (himp : ∀ s, ok s → ok' s) {place : UInt64}
    {s : ArgSpec} (h : PutAt regs m ok place s) : PutAt regs m ok' place s :=
  h.imp_right (And.imp_right (himp s))

/-- Leaves put one after the other. -/
def putAll : List UInt64 → List LeafData → MemSnapshot → MemSnapshot
  | place :: places, leaf :: leaves, snap => putAll places leaves (snap.put place leaf)
  | _, _, snap => snap

theorem putAll_append {xs ys : List UInt64} {ls ms : List LeafData} (h : xs.length = ls.length)
    (snap : MemSnapshot) :
    putAll (xs ++ ys) (ls ++ ms) snap = putAll ys ms (putAll xs ls snap) := by
  induction xs generalizing ls snap with
  | nil =>
    obtain rfl := List.length_eq_zero_iff.mp h.symm
    rfl
  | cons x xs ih =>
    cases ls with
    | nil => cases h
    | cons l ls => exact ih (Nat.succ.inj h) _

variable {regs m} in
/-- Leaves that are put where their rule chains have fetched them, or nowhere. -/
theorem putAll_puts {ok : ArgSpec → Prop} {places : List UInt64} {specs : List ArgSpec}
    (h : List.Forall₂ (PutAt regs m ok) places specs) {leaves : List LeafData}
    (hlen : leaves.length = specs.length) (snap : MemSnapshot) :
    Puts regs m ok specs leaves snap (putAll places leaves snap) := by
  induction h generalizing leaves snap with
  | nil =>
    obtain rfl := List.length_eq_zero_iff.mp hlen
    exact .nil
  | cons hplace _ ih =>
    cases leaves with
    | nil => cases hlen
    | cons leaf leaves =>
      have hrest := ih (Nat.succ.inj hlen)
      rw [putAll]
      rcases hplace with rfl | ⟨rfl, hok⟩
      · exact .skip (hrest _)
      · exact .put hok (hrest _)

/-! ## Captures of an object -/

/-- A word of a slice of memory. -/
theorem word_of_slice {addr : UInt64} {len : Nat} (h : 8 ≤ len) :
    word (m.slice addr len) = m.wordAt addr :=
  Memory.word_slice h

/-- The part of an object copy that belongs to a field. -/
theorem fieldMem_slice (addr : UInt64) (len : Nat) (off : Int) :
    ∃ len', Uprobe.fieldMem (m.slice addr len) off =
        m.slice (addr + UInt64.ofInt off) len' ∧
      len' = if 0 ≤ off ∧ off < len then len - off.toNat else 0 := by
  unfold Uprobe.fieldMem
  rw [Memory.slice_length]
  split
  · rename_i h
    refine ⟨len - off.toNat, ?_, rfl⟩
    obtain ⟨k, rfl⟩ := Int.eq_ofNat_of_zero_le h.1
    have hk : k ≤ len := by omega
    rw [Int.toNat_natCast]
    conv_lhs => rw [← Nat.add_sub_cancel' hk]
    rw [Memory.slice_drop, Lib.ofInt_natCast]
  · exact ⟨0, rfl, rfl⟩

mutual

/-- Whether a non-empty interface starts in the first `len` bytes of an object. -/
def hasItab (len : Nat) : DType → Bool
  | .typedef _ t => hasItab len t
  | .qual _ t => hasItab len t
  | .struct _ s _ fs =>
    match structKind s fs with
    | .iface nonEmpty => nonEmpty && decide (8 ≤ len)
    | .plain => fieldsHaveItab len fs
    | _ => false
  | _ => false

def fieldsHaveItab (len : Nat) : Fields → Bool
  | .nil => false
  | .cons _ off t rest =>
    hasItab (if 0 ≤ off ∧ off < len then len - off.toNat else 0) t || fieldsHaveItab len rest

end

/-- A capture of 64 bytes. -/
def IsBlob (s : ArgSpec) : Prop := s.size = Uprobe.autoStringSize

/-- A location whose steps `struct arg_rule` holds without loss. -/
def Located (loc : MemLoc) : Prop :=
  ∃ r steps, loc.reg = some r ∧ loc.steps = Bpf.stepRules steps ∧
    ∀ s ∈ steps, Bpf.FitsInt16 s.1

/-- A leaf whose memory steps `struct arg_rule` holds without loss. -/
def Addressed (s : ArgSpec) : Prop :=
  ∃ r steps, s.fetchArg.rules = .register (some r) :: Bpf.stepRules steps ∧ steps ≠ [] ∧
    ∀ step ∈ steps, Bpf.FitsInt16 step.1

theorem located_step {loc : MemLoc} (h : Located loc) {off : Int} (hoff : Bpf.FitsInt16 off)
    (deref : Bool) : Located { loc with steps := loc.steps ++ [.stack off deref] } := by
  obtain ⟨r, steps, hr, hsteps, hfits⟩ := h
  refine ⟨r, steps ++ [(off, deref)], hr, ?_, ?_⟩
  · rw [hsteps, Bpf.stepRules, Bpf.stepRules, List.map_append]
    rfl
  · exact List.forall_mem_append.mpr ⟨hfits, List.forall_mem_singleton.mpr hoff⟩

theorem Located.deref {loc : MemLoc} (h : Located loc) {off : Int} (hoff : Bpf.FitsInt16 off) :
    Located (loc.deref off) := located_step h hoff true

theorem Located.add {loc : MemLoc} (h : Located loc) {off : Int} (hoff : Bpf.FitsInt16 off) :
    Located (loc.add off) := by
  unfold MemLoc.add
  split
  · exact h
  · exact located_step h hoff false

theorem located_reg {i : Nat} (h : i < abiRegs.length) (nilCheck : Bool) :
    Located { reg := abiRegs[i]?, nilCheck := nilCheck } :=
  ⟨abiRegs[i], [], List.getElem?_eq_getElem h, rfl, nofun⟩

theorem Located.addressed {loc : MemLoc} (h : Located loc) (name : String) (size : Int)
    (typ : String) : Addressed (Uprobe.locSpec name loc size typ) := by
  obtain ⟨r, steps, hr, hsteps, hfits⟩ := h
  cases steps with
  | nil =>
    refine ⟨r, [(0, false)], ?_, List.cons_ne_nil _ _, by decide⟩
    simp [Uprobe.locSpec, ArgSpec.fetchArg, hr, hsteps, Bpf.stepRules]
  | cons step steps =>
    refine ⟨r, step :: steps, ?_, List.cons_ne_nil _ _, hfits⟩
    simp [Uprobe.locSpec, ArgSpec.fetchArg, hr, hsteps, Bpf.stepRules]

/-- A leaf of 64 bytes, or the type word of an itab where there may be one, with an address. -/
def Fetchable (itab : Bool) (s : ArgSpec) : Prop :=
  (IsBlob s ∨ itab = true ∧ s.size = 8) ∧ Addressed s

theorem Fetchable.mono {itab itab' : Bool} (himp : itab = true → itab' = true) {s : ArgSpec}
    (h : Fetchable itab s) : Fetchable itab' s := ⟨h.1.imp_right (And.imp_left himp), h.2⟩

theorem Located.blobAt {loc : MemLoc} (h : Located loc) (itab : Bool) (name : String) :
    Fetchable itab (Uprobe.blobAt name loc) := ⟨.inl rfl, h.addressed name _ _⟩

/-- Where `putAtWord` puts a leaf, `0` for nowhere. -/
def wordPlace (mem : List UInt8) (off : UInt64) : UInt64 :=
  if 8 ≤ mem.length then word mem + off else 0

theorem putAtWord_eq (mem : List UInt8) (off : UInt64) (leaf : LeafData) (snap : MemSnapshot) :
    Uprobe.putAtWord mem off leaf snap = snap.put (wordPlace mem off) leaf := by
  unfold Uprobe.putAtWord wordPlace
  split
  · rfl
  · rw [put_zero]

mutual

/-- Where the renderer puts the captures of an object, `0` for nowhere. -/
def memPlaces : DType → List UInt8 → List UInt64
  | .typedef _ t, mem => memPlaces t mem
  | .qual _ t, mem => memPlaces t mem
  | .struct _ s _ fs, mem =>
    match structKind s fs with
    | .string => [wordPlace mem 0]
    | .slice => [wordPlace mem 0]
    | .iface nonEmpty =>
      (if nonEmpty then [wordPlace mem 8] else []) ++ [0, Uprobe.ifaceDataWord mem]
    | .plain => fieldPlaces fs mem
  | _, _ => []

def fieldPlaces : Fields → List UInt8 → List UInt64
  | .nil, _ => []
  | .cons _ off t rest, mem => memPlaces t (Uprobe.fieldMem mem off) ++ fieldPlaces rest mem

end

mutual

theorem memPlaces_length : ∀ (t : DType) (mem : List UInt8),
    (memPlaces t mem).length = t.extraCaptures true
  | .typedef _ t, mem => memPlaces_length t mem
  | .qual _ t, mem => memPlaces_length t mem
  | .struct _ s _ fs, mem => by
    rw [memPlaces, DType.extraCaptures]
    cases structKind s fs with
    | plain => exact fieldPlaces_length fs mem
    | iface nonEmpty => cases nonEmpty <;> rfl
    | _ => rfl
  | .ptr _ _ _, _ => rfl
  | .basic _ _ _, _ => rfl
  | .func _ _ _, _ => rfl
  | .other _ _ _, _ => rfl

theorem fieldPlaces_length : ∀ (fs : Fields) (mem : List UInt8),
    (fieldPlaces fs mem).length = fs.extraCaptures true
  | .nil, _ => rfl
  | .cons _ off t rest, mem => by
    rw [fieldPlaces, List.length_append, memPlaces_length t, fieldPlaces_length rest,
      Fields.extraCaptures]

end

mutual

/-- The captures of an object are put at these places. -/
theorem consumeMemCaptures_eq : ∀ (t : DType) (mem : List UInt8) (own rest : List LeafData)
    (snap : MemSnapshot), own.length = t.extraCaptures true →
    t.consumeMemCaptures mem (own ++ rest) snap = (rest, putAll (memPlaces t mem) own snap)
  | .typedef _ t, mem, own, rest, snap, h => consumeMemCaptures_eq t mem own rest snap h
  | .qual _ t, mem, own, rest, snap, h => consumeMemCaptures_eq t mem own rest snap h
  | .struct _ s _ fs, mem, own, rest, snap, h => by
    rw [DType.extraCaptures] at h
    rw [DType.consumeMemCaptures, memPlaces]
    cases hkind : structKind s fs with
    | plain =>
      rw [hkind] at h
      exact consumeMemFields_eq fs mem own rest snap h
    | string =>
      rw [hkind] at h
      obtain ⟨leaf, rfl⟩ := List.length_eq_one_iff.mp h
      exact congrArg (Prod.mk rest) (putAtWord_eq mem 0 leaf snap)
    | slice =>
      rw [hkind] at h
      obtain ⟨leaf, rfl⟩ := List.length_eq_one_iff.mp h
      exact congrArg (Prod.mk rest) (putAtWord_eq mem 0 leaf snap)
    | iface nonEmpty =>
      rw [hkind] at h
      cases nonEmpty with
      | true =>
        obtain ⟨typeLeaf, dataLeaf, valueLeaf, rfl⟩ := List.length_eq_three.mp h
        exact congrArg (fun snap' => (rest, snap'.put (Uprobe.ifaceDataWord mem) valueLeaf))
          (putAtWord_eq mem 8 typeLeaf snap)
      | false =>
        obtain ⟨dataLeaf, valueLeaf, rfl⟩ := List.length_eq_two.mp h
        rfl
  | .ptr _ _ _, mem, own, rest, snap, h => by
    obtain rfl := List.length_eq_zero_iff.mp h
    rfl
  | .basic _ _ _, mem, own, rest, snap, h => by
    obtain rfl := List.length_eq_zero_iff.mp h
    rfl
  | .func _ _ _, mem, own, rest, snap, h => by
    obtain rfl := List.length_eq_zero_iff.mp h
    rfl
  | .other _ _ _, mem, own, rest, snap, h => by
    obtain rfl := List.length_eq_zero_iff.mp h
    rfl

theorem consumeMemFields_eq : ∀ (fs : Fields) (mem : List UInt8) (own rest : List LeafData)
    (snap : MemSnapshot), own.length = fs.extraCaptures true →
    fs.consumeMemCaptures mem (own ++ rest) snap = (rest, putAll (fieldPlaces fs mem) own snap)
  | .nil, mem, own, rest, snap, h => by
    obtain rfl := List.length_eq_zero_iff.mp h
    rfl
  | .cons n off t fs, mem, own, rest, snap, h => by
    rw [Fields.extraCaptures] at h
    obtain ⟨mine, theirs, rfl, hmine, htheirs⟩ : ∃ mine theirs, own = mine ++ theirs ∧
        mine.length = t.extraCaptures true ∧ theirs.length = fs.extraCaptures true :=
      ⟨own.take (t.extraCaptures true), own.drop (t.extraCaptures true),
        (List.take_append_drop _ _).symm, by rw [List.length_take]; omega,
        by rw [List.length_drop]; omega⟩
    have hlen : (memPlaces t (Uprobe.fieldMem mem off)).length = mine.length := by
      rw [memPlaces_length, hmine]
    rw [Fields.consumeMemCaptures, fieldPlaces, List.append_assoc,
      consumeMemCaptures_eq t _ mine (theirs ++ rest) snap hmine]
    dsimp only
    rw [consumeMemFields_eq fs mem theirs rest _ htheirs, putAll_append hlen]

end

/-- A string or a slice in an object. -/
theorem wordPlace_addr (name : String) (loc : MemLoc) (len : Nat) (itab : Bool)
    (hloc : 0 < len → Located loc) :
    PutAt regs m (Fetchable itab) (wordPlace (m.slice (locAddr regs m loc) len) 0)
      (Uprobe.blobAt name (loc.deref 0)) := by
  unfold wordPlace
  rw [Memory.slice_length]
  split
  · rename_i h
    refine .inr ⟨?_, ((hloc (by omega)).deref (by decide)).blobAt _ _⟩
    rw [UInt64.add_zero, word_of_slice m h, leafAddr_blobAt, locAddr_deref, ofInt_zero,
      UInt64.add_zero]
  · exact .inl rfl

/-- An interface in an object. -/
theorem ifacePlaces_addr (name : String) (loc : MemLoc) (len : Nat) (nonEmpty : Bool)
    (hloc : 0 < len → Located loc) :
    List.Forall₂ (PutAt regs m (Fetchable (nonEmpty && decide (8 ≤ len))))
      ((if nonEmpty then [wordPlace (m.slice (locAddr regs m loc) len) 8] else []) ++
        [0, Uprobe.ifaceDataWord (m.slice (locAddr regs m loc) len)])
      ((if nonEmpty then
          [Uprobe.locSpec (name ++ ".type") ((loc.deref 0).add 8) 8 "u64"] else []) ++
        [Uprobe.locSpec (name ++ ".data") (loc.add 8) 8 "u64",
          Uprobe.blobAt (name ++ ".value") (loc.deref 8)]) := by
  have hvalue : PutAt regs m (Fetchable (nonEmpty && decide (8 ≤ len)))
      (Uprobe.ifaceDataWord (m.slice (locAddr regs m loc) len))
      (Uprobe.blobAt (name ++ ".value") (loc.deref 8)) := by
    unfold Uprobe.ifaceDataWord
    rw [Memory.slice_length]
    split
    · rename_i h
      refine .inr ⟨?_, ((hloc (by omega)).deref (by decide)).blobAt _ _⟩
      rw [Memory.word_drop_slice h, leafAddr_blobAt, locAddr_deref]
      rfl
    · exact .inl rfl
  refine List.rel_append ?_ (.cons (.inl rfl) (.cons hvalue .nil))
  cases nonEmpty with
  | false => exact .nil
  | true =>
    refine .cons ?_ .nil
    unfold wordPlace
    rw [Memory.slice_length]
    split
    · rename_i h
      have htype : Located ((loc.deref 0).add 8) :=
        ((hloc (by omega)).deref (by decide)).add (by decide)
      refine .inr ⟨?_, .inr ⟨by simpa using h, rfl⟩, htype.addressed _ _ _⟩
      rw [leafAddr_locSpec, locAddr_add, locAddr_deref, ofInt_zero, UInt64.add_zero,
        word_of_slice m h]
      rfl
    · exact .inl rfl

mutual

/-- The captures of an object: the copy holds the first bytes at the location. -/
theorem memPlaces_addr (name : String) : ∀ (t : DType) (loc : MemLoc) (len : Nat),
    len < 2 ^ 15 → (0 < len → Located loc) →
    List.Forall₂ (PutAt regs m (Fetchable (hasItab len t)))
      (memPlaces t (m.slice (locAddr regs m loc) len)) (t.memCaptures name loc)
  | .typedef _ t, loc, len, hlt, hloc => memPlaces_addr name t loc len hlt hloc
  | .qual _ t, loc, len, hlt, hloc => memPlaces_addr name t loc len hlt hloc
  | .struct _ s _ fs, loc, len, hlt, hloc => by
    rw [memPlaces, DType.memCaptures, hasItab]
    cases structKind s fs with
    | plain => exact fieldPlaces_addr name fs loc len hlt hloc
    | string => exact .cons (wordPlace_addr regs m _ loc len _ hloc) .nil
    | slice => exact .cons (wordPlace_addr regs m _ loc len _ hloc) .nil
    | iface nonEmpty => exact ifacePlaces_addr regs m name loc len nonEmpty hloc
  | .ptr _ _ _, _, _, _, _ => .nil
  | .basic _ _ _, _, _, _, _ => .nil
  | .func _ _ _, _, _, _, _ => .nil
  | .other _ _ _, _, _, _, _ => .nil

theorem fieldPlaces_addr (name : String) : ∀ (fs : Fields) (loc : MemLoc) (len : Nat),
    len < 2 ^ 15 → (0 < len → Located loc) →
    List.Forall₂ (PutAt regs m (Fetchable (fieldsHaveItab len fs)))
      (fieldPlaces fs (m.slice (locAddr regs m loc) len)) (fs.memCaptures name loc)
  | .nil, _, _, _, _ => .nil
  | .cons n off t fs, loc, len, hlt, hloc => by
    obtain ⟨len', hmem, hlen'⟩ := fieldMem_slice m (locAddr regs m loc) len off
    rw [← locAddr_add] at hmem
    -- a field that starts outside the copy has no captures to put
    have hfield : len' < 2 ^ 15 ∧ (0 < len' → Located (loc.add off)) := by
      rw [hlen']
      split
      · rename_i hin
        exact ⟨by omega, fun _ => (hloc (by omega)).add ⟨by omega, by omega⟩⟩
      · exact ⟨by omega, fun hpos => absurd hpos (Nat.lt_irrefl 0)⟩
    rw [fieldPlaces, Fields.memCaptures, fieldsHaveItab, ← hlen', hmem]
    refine List.rel_append ?_ ?_
    · refine (memPlaces_addr (name ++ "." ++ n) t (loc.add off) len' hfield.1 hfield.2).imp ?_
      exact fun _ _ hput => hput.mono fun s hs => hs.mono fun h => by rw [h, Bool.true_or]
    · refine (fieldPlaces_addr name fs loc len hlt hloc).imp ?_
      exact fun _ _ hput => hput.mono fun s hs => hs.mono fun h => by rw [h, Bool.or_true]

end

end

/-! ## Captures of a struct in registers -/

/-- A word leaf holds the register it is read from. -/
def HoldsWord (regs : Uprobe.Reg → UInt64) (s : ArgSpec) (leaf : LeafData) : Prop :=
  8 ≤ leaf.data.length ∧
    ∀ r, s.fetchArg.rules = [.register r] → word leaf.data = regValue regs r

/-- The word leaves of a value hold its registers. -/
abbrev HoldsWords (regs : Uprobe.Reg → UInt64) (specs : List ArgSpec) (leaves : List LeafData) :
    Prop := List.Forall₂ (HoldsWord regs) specs leaves

theorem HoldsWord.scalar {regs : Uprobe.Reg → UInt64} {name typ : String} {size : Int}
    {r : Option Uprobe.Reg} {leaf : LeafData}
    (h : HoldsWord regs (Uprobe.scalarRegSpec name size typ r) leaf) :
    word leaf.data = regValue regs r := h.2 r rfl

theorem leafAddr_blobAt_reg (regs : Uprobe.Reg → UInt64) (m : Memory) (name : String)
    (r : Option Uprobe.Reg) (nilCheck : Bool) :
    leafAddr regs m (Uprobe.blobAt name { reg := r, nilCheck := nilCheck }) = regValue regs r := by
  rw [leafAddr_blobAt, locAddr_reg]

theorem forall₂_append_left {α β : Type} {R : α → β → Prop} {xs ys : List α} {zs : List β}
    (h : List.Forall₂ R (xs ++ ys) zs) :
    ∃ ls ms, zs = ls ++ ms ∧ List.Forall₂ R xs ls ∧ List.Forall₂ R ys ms := by
  induction xs generalizing zs with
  | nil => exact ⟨[], zs, rfl, .nil, h⟩
  | cons x xs ih =>
    obtain ⟨leaf, more, hleaf, hmore, rfl⟩ := List.forall₂_cons_left_iff.mp h
    obtain ⟨ls, ms, rfl, hls, hms⟩ := ih hmore
    exact ⟨leaf :: ls, ms, rfl, .cons hleaf hls, hms⟩

theorem concatLeaves_length {regs : Uprobe.Reg → UInt64} {specs : List ArgSpec}
    {leaves : List LeafData} (h : HoldsWords regs specs leaves) :
    (Uprobe.concatLeaves leaves).length = 8 * specs.length := by
  induction h with
  | nil => rfl
  | cons hleaf _ ih =>
    rw [Uprobe.concatLeaves, List.flatMap_cons, List.length_append, List.length_take,
      ← Uprobe.concatLeaves, ih, List.length_cons, Nat.min_eq_left hleaf.1]
    omega

/-- The first two words of the bytes of two word leaves. -/
theorem word_concatLeaves {a b : LeafData} (more : List LeafData) (tail : List UInt8)
    (ha : 8 ≤ a.data.length) (hb : 8 ≤ b.data.length) :
    16 ≤ (Uprobe.concatLeaves (a :: b :: more) ++ tail).length ∧
      word (Uprobe.concatLeaves (a :: b :: more) ++ tail) = word a.data ∧
      word ((Uprobe.concatLeaves (a :: b :: more) ++ tail).drop 8) = word b.data := by
  have hla : (a.data.take 8).length = 8 := by rw [List.length_take]; omega
  have hlb : (b.data.take 8).length = 8 := by rw [List.length_take]; omega
  have hconcat : Uprobe.concatLeaves (a :: b :: more) ++ tail =
      a.data.take 8 ++ (b.data.take 8 ++ (Uprobe.concatLeaves more ++ tail)) := by
    simp [Uprobe.concatLeaves]
  rw [hconcat]
  refine ⟨by simp only [List.length_append]; omega, ?_, ?_⟩
  · rw [← Lib.word_take (Nat.le_refl 8), List.take_left' hla, Lib.word_take (Nat.le_refl 8)]
  · rw [List.drop_left' hla, ← Lib.word_take (Nat.le_refl 8), List.take_left' hlb,
      Lib.word_take (Nat.le_refl 8)]

theorem forall₂_comp {α β γ : Type} {R : α → β → Prop} {S : β → γ → Prop} {T : α → γ → Prop}
    (hT : ∀ a b c, R a b → S b c → T a c) {xs : List α} {ys : List β} {zs : List γ}
    (h : List.Forall₂ R xs ys) (h' : List.Forall₂ S ys zs) : List.Forall₂ T xs zs := by
  induction h generalizing zs with
  | nil =>
    obtain rfl := List.forall₂_nil_left_iff.mp h'
    exact .nil
  | cons hab _ ih =>
    obtain ⟨c, cs, hbc, hcs, rfl⟩ := List.forall₂_cons_left_iff.mp h'
    exact .cons (hT _ _ _ hab hbc) (ih hcs)

theorem consumeBacking_eq (kind : Uprobe.StructKind) (hkind : ∀ nonEmpty, kind ≠ .iface nonEmpty)
    (img : List UInt8) (leaf : LeafData) (rest : List LeafData) (snap : MemSnapshot) :
    Uprobe.consumeBacking img (leaf :: rest) snap =
      (rest, snap.put (word (kind.pointer img)) leaf) := by
  have hpointer : kind.pointer img = if 8 ≤ img.length then img.take 8 else [] := by
    cases kind with
    | iface nonEmpty => exact absurd rfl (hkind nonEmpty)
    | _ => rfl
  rw [hpointer, Uprobe.consumeBacking, Uprobe.putAtWord]
  split
  · rw [Lib.word_take (Nat.le_refl 8), UInt64.add_zero]
  · rfl

theorem bindIfaceCaptures_eq (nonEmpty : Bool) (img : List UInt8) (leaf : LeafData)
    (rest : List LeafData) (snap : MemSnapshot) :
    Uprobe.bindIfaceCaptures img (leaf :: rest) snap =
      snap.put (word ((Uprobe.StructKind.iface nonEmpty).pointer img)) leaf := by
  have hpointer : (Uprobe.StructKind.iface nonEmpty).pointer img =
      if 16 ≤ img.length then (img.drop 8).take 8 else [] := rfl
  rw [hpointer, Uprobe.bindIfaceCaptures]
  split
  · rename_i h
    rw [if_neg (by omega)]
    rfl
  · rename_i h
    rw [if_pos (by omega), Lib.word_take (Nat.le_refl 8)]

mutual

/-- The captures of a struct in registers are put at the pointers found in its image. -/
theorem consumeRegCaptures_eq : ∀ (t : DType) (img : List UInt8) (own rest : List LeafData)
    (snap : MemSnapshot), own.length = t.extraCaptures false →
    t.consumeRegCaptures img (own ++ rest) snap =
      (rest, putAll ((t.pointers img).map word) own snap)
  | .typedef _ t, img, own, rest, snap, h => consumeRegCaptures_eq t img own rest snap h
  | .qual _ t, img, own, rest, snap, h => consumeRegCaptures_eq t img own rest snap h
  | .struct _ s _ fs, img, own, rest, snap, h => by
    rw [DType.extraCaptures] at h
    rw [DType.consumeRegCaptures, DType.pointers]
    cases hkind : structKind s fs with
    | plain =>
      rw [hkind] at h
      exact consumeRegFields_eq fs img own rest snap h
    | string =>
      rw [hkind] at h
      obtain ⟨leaf, rfl⟩ := List.length_eq_one_iff.mp h
      exact consumeBacking_eq .string (fun _ h => nomatch h) img leaf rest snap
    | slice =>
      rw [hkind] at h
      obtain ⟨leaf, rfl⟩ := List.length_eq_one_iff.mp h
      exact consumeBacking_eq .slice (fun _ h => nomatch h) img leaf rest snap
    | iface nonEmpty =>
      rw [hkind] at h
      obtain ⟨leaf, rfl⟩ := List.length_eq_one_iff.mp h
      exact congrArg (Prod.mk rest) (bindIfaceCaptures_eq nonEmpty img leaf rest snap)
  | .ptr _ _ _, img, own, rest, snap, h => by
    obtain rfl := List.length_eq_zero_iff.mp h
    rfl
  | .basic _ _ _, img, own, rest, snap, h => by
    obtain rfl := List.length_eq_zero_iff.mp h
    rfl
  | .func _ _ _, img, own, rest, snap, h => by
    obtain rfl := List.length_eq_zero_iff.mp h
    rfl
  | .other _ _ _, img, own, rest, snap, h => by
    obtain rfl := List.length_eq_zero_iff.mp h
    rfl

theorem consumeRegFields_eq : ∀ (fs : Fields) (img : List UInt8) (own rest : List LeafData)
    (snap : MemSnapshot), own.length = fs.extraCaptures false →
    fs.consumeRegCaptures img (own ++ rest) snap =
      (rest, putAll ((fs.pointers img).map word) own snap)
  | .nil, img, own, rest, snap, h => by
    obtain rfl := List.length_eq_zero_iff.mp h
    rfl
  | .cons n off t fs, img, own, rest, snap, h => by
    rw [Fields.extraCaptures] at h
    obtain ⟨mine, theirs, rfl, hmine, htheirs⟩ : ∃ mine theirs, own = mine ++ theirs ∧
        mine.length = t.extraCaptures false ∧ theirs.length = fs.extraCaptures false :=
      ⟨own.take (t.extraCaptures false), own.drop (t.extraCaptures false),
        (List.take_append_drop _ _).symm, by rw [List.length_take]; omega,
        by rw [List.length_drop]; omega⟩
    have hlen : ((t.pointers (Uprobe.fieldMem img off)).map word).length = mine.length := by
      rw [List.length_map, Uprobe.pointers_length, hmine]
    rw [Fields.consumeRegCaptures, Fields.pointers, List.append_assoc,
      consumeRegCaptures_eq t _ mine (theirs ++ rest) snap hmine]
    dsimp only
    rw [consumeRegFields_eq fs img theirs rest _ htheirs, List.map_append, putAll_append hlen]

end

section
variable (regs : Uprobe.Reg → UInt64) (m : Memory)

mutual

/-- The words of a struct hold the addresses that its captures are read from. -/
theorem ownPointers_addr (name : String) : ∀ (t : DType) (w : Nat) (words : List LeafData)
    (tail : List UInt8), HoldsWords regs (t.wordSpecs name w) words →
    List.Forall₂ (fun own s => word own = leafAddr regs m s)
      (t.ownPointers (Uprobe.concatLeaves words ++ tail))
      ((t.regJobs name w).map Uprobe.CaptureJob.spec)
  | .typedef _ t, w, words, tail, h => ownPointers_addr name t w words tail h
  | .qual _ t, w, words, tail, h => ownPointers_addr name t w words tail h
  | .struct _ s _ fs, w, words, tail, h => by
    rw [DType.wordSpecs] at h
    rw [DType.ownPointers, DType.regJobs]
    cases hkind : structKind s fs with
    | plain =>
      simp only [hkind] at h
      exact ownPointers_addr_fields name fs w words tail h
    | string =>
      simp only [hkind] at h
      obtain ⟨data, _, hdata, hmore, rfl⟩ := List.forall₂_cons_left_iff.mp h
      obtain ⟨len, more, hlen, -, rfl⟩ := List.forall₂_cons_left_iff.mp hmore
      obtain ⟨hsize, hword, -⟩ := word_concatLeaves more tail hdata.1 hlen.1
      refine .cons ?_ .nil
      change word (if 8 ≤ _ then _ else _) = leafAddr regs m (Uprobe.blobAt _ _)
      rw [if_pos (by omega), Lib.word_take (Nat.le_refl 8), hword, hdata.scalar,
        leafAddr_blobAt_reg]
    | slice =>
      simp only [hkind] at h
      obtain ⟨data, _, hdata, hmore, rfl⟩ := List.forall₂_cons_left_iff.mp h
      obtain ⟨len, more, hlen, -, rfl⟩ := List.forall₂_cons_left_iff.mp hmore
      obtain ⟨hsize, hword, -⟩ := word_concatLeaves more tail hdata.1 hlen.1
      refine .cons ?_ .nil
      change word (if 8 ≤ _ then _ else _) = leafAddr regs m (Uprobe.blobAt _ _)
      rw [if_pos (by omega), Lib.word_take (Nat.le_refl 8), hword, hdata.scalar,
        leafAddr_blobAt_reg]
    | iface nonEmpty =>
      simp only [hkind] at h
      obtain ⟨type, _, htype, hmore, rfl⟩ := List.forall₂_cons_left_iff.mp h
      obtain ⟨data, more, hdata, -, rfl⟩ := List.forall₂_cons_left_iff.mp hmore
      obtain ⟨hsize, -, hword⟩ := word_concatLeaves more tail htype.1 hdata.1
      refine .cons ?_ .nil
      change word (if 16 ≤ _ then _ else _) = leafAddr regs m (Uprobe.blobAt _ _)
      rw [if_pos hsize, Lib.word_take (Nat.le_refl 8), hword, hdata.scalar, leafAddr_blobAt_reg]
  | .ptr _ _ _, _, _, _, _ => .nil
  | .basic _ _ _, _, _, _, _ => .nil
  | .func _ _ _, _, _, _, _ => .nil
  | .other _ _ _, _, _, _, _ => .nil

theorem ownPointers_addr_fields (name : String) : ∀ (fs : Fields) (w : Nat)
    (words : List LeafData) (tail : List UInt8), HoldsWords regs (fs.wordSpecs name w) words →
    List.Forall₂ (fun own s => word own = leafAddr regs m s)
      (fs.ownPointers (Uprobe.concatLeaves words ++ tail))
      ((fs.regJobs name w).map Uprobe.CaptureJob.spec)
  | .nil, _, _, _, _ => .nil
  | .cons n _ t rest, w, words, tail, h => by
    rw [Fields.wordSpecs] at h
    obtain ⟨ws, ws', rfl, hws, hws'⟩ := forall₂_append_left h
    have hconcat : Uprobe.concatLeaves (ws ++ ws') ++ tail =
        Uprobe.concatLeaves ws ++ (Uprobe.concatLeaves ws' ++ tail) := by
      simp [Uprobe.concatLeaves]
    have hlen : (Uprobe.concatLeaves ws).length = 8 * t.leafWords := by
      rw [concatLeaves_length hws, DType.wordSpecs_length]
    rw [Fields.ownPointers, Fields.regJobs, List.map_append, hconcat, List.drop_left' hlen]
    exact List.rel_append (ownPointers_addr (name ++ "." ++ n) t w ws _ hws)
      (ownPointers_addr_fields name rest (w + t.leafWords) ws' tail hws')

end

end

end GoFtrace.Tracing
