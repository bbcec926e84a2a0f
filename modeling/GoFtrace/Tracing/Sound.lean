import GoFtrace.Tracing.Fetched
import GoFtrace.Uprobe.Reads

/-!
# Soundness of the snapshot

A read that is served by a leaf of 64 bytes returns the memory that the leaf was copied
from. The type word of an itab has a leaf too, of which only eight bytes were copied; the
snapshot serves its whole slot.

* `slots_read`: when a snapshot of slots serves memory.
* `rendering_sound`: exactly when every read of a rendering returns the target's memory.
-/

namespace GoFtrace.Tracing

open Lib (Memory)
open Bpf (PtRegs UserMemory ArgData ArgRules encodeArgs maxDataSize)
open Uprobe (DType ArgSpec LeafData MemSnapshot SnapChunk MemoryReader Value Variable Planned
  Cursor Kept Recipes abiRegs keep planEach derive maxFetchArgs maxDynamicDepth RenderEnv Call Read)

/-! ## Slots -/

/-- A capture in the snapshot: the bytes at `place` were copied from `source`, and zeros
follow them up to the end of the slot. -/
structure Slot where
  place : UInt64
  source : UInt64
  size : Nat

namespace Slot

/-- The byte `j` of a slot. -/
def byte (m : Memory) (s : Slot) (j : Nat) : UInt8 :=
  if j < s.size then m (s.source + UInt64.ofNat j) else 0

def chunk (m : Memory) (s : Slot) : SnapChunk where
  addr := s.place
  data := (List.range maxDataSize).map (s.byte m)

def holds (s : Slot) (addr : UInt64) : Bool :=
  decide (s.place ≤ addr) && decide (addr < s.place + UInt64.ofNat maxDataSize)

/-- What the slot has for a read is what memory holds: bytes that were copied from elsewhere
are the same, and memory is zero where none were copied. -/
def TrueAt (m : Memory) (s : Slot) (r : Read) : Prop :=
  let j := (r.1 - s.place).toNat
  r.2 ≤ maxDataSize - j → ∀ i < r.2,
    (j + i < s.size → m (s.source + UInt64.ofNat (j + i)) = m (r.1 + UInt64.ofNat i)) ∧
      (s.size ≤ j + i → m (r.1 + UInt64.ofNat i) = 0)

end Slot

/-- The reader that serves memory wherever a slot holds the bytes of the read. -/
def trueRead (m : Memory) (slots : List Slot) : MemoryReader := fun addr n =>
  match slots.find? (·.holds addr) with
  | none => none
  | some s => if n ≤ maxDataSize - (addr - s.place).toNat then some (m.slice addr n) else none

section
variable {m : Memory}

theorem chunk_length (s : Slot) : (s.chunk m).data.length = maxDataSize := by
  rw [Slot.chunk, List.length_map, List.length_range]

theorem chunk_holds (s : Slot) (addr : UInt64) : (s.chunk m).holds addr = s.holds addr := by
  rw [SnapChunk.holds, chunk_length]
  rfl

/-- The bytes that a slot serves. -/
theorem chunk_served {s : Slot} {r : Read}
    (hle : r.2 ≤ maxDataSize - (r.1 - s.place).toNat) :
    ((s.chunk m).data.drop (r.1 - s.place).toNat).take r.2 = m.slice r.1 r.2 ↔
      s.TrueAt m r := by
  have hlen : (((s.chunk m).data.drop (r.1 - s.place).toNat).take r.2).length = r.2 := by
    rw [List.length_take, List.length_drop, chunk_length]
    omega
  have hserved : ∀ i (hi : i < (((s.chunk m).data.drop (r.1 - s.place).toNat).take r.2).length),
      (((s.chunk m).data.drop (r.1 - s.place).toNat).take r.2)[i] =
        s.byte m ((r.1 - s.place).toNat + i) := by
    intro i hi
    simp only [Slot.chunk, List.getElem_take, List.getElem_drop, List.getElem_map,
      List.getElem_range]
  constructor
  · intro h _ i hi
    have hi' : i < (m.slice r.1 r.2).length := by rwa [Memory.slice_length]
    have hbyte := hserved i (by rwa [hlen])
    simp only [h, Memory.slice_getElem] at hbyte
    unfold Slot.byte at hbyte
    refine ⟨fun hin => ?_, fun hout => ?_⟩
    · rw [if_pos hin] at hbyte
      exact hbyte.symm
    · rwa [if_neg (by omega)] at hbyte
  · intro h
    refine List.ext_getElem (by rw [hlen, Memory.slice_length]) fun i hi hi' => ?_
    obtain ⟨hin, hout⟩ := h hle i (by rwa [hlen] at hi)
    rw [hserved i hi, Memory.slice_getElem, Slot.byte]
    split
    · rename_i hlt
      exact hin hlt
    · rename_i hge
      exact (hout (by omega)).symm

/-- The snapshot of slots. -/
def slotSnapshot (m : Memory) (slots : List Slot) : MemSnapshot where
  chunks := slots.map (Slot.chunk m)

theorem slots_read (slots : List Slot) (r : Read) :
    (slotSnapshot m slots).read r.1 r.2 =
      (slots.find? (·.holds r.1)).bind fun s =>
        if r.2 ≤ maxDataSize - (r.1 - s.place).toNat then
          some (((s.chunk m).data.drop (r.1 - s.place).toNat).take r.2) else none := by
  have hfind : (slots.map (Slot.chunk m)).find? (·.holds r.1) =
      (slots.find? (·.holds r.1)).map (Slot.chunk m) := by
    rw [List.find?_map]
    exact congrArg (Option.map _) (congrArg (List.find? · slots)
      (funext fun s => chunk_holds s r.1))
  rw [MemSnapshot.read, slotSnapshot, hfind]
  cases hs : slots.find? (·.holds r.1) with
  | none => rfl
  | some s =>
    have hlen : ((s.chunk m).data.drop (r.1 - s.place).toNat).length =
        maxDataSize - (r.1 - s.place).toNat := by rw [List.length_drop, chunk_length]
    dsimp only [Option.map_some, Option.bind_some]
    rw [← hlen]
    rfl

/-- What a read returns is memory exactly when the first slot that holds its first byte has
memory for it. -/
theorem slots_sound (slots : List Slot) (r : Read) :
    (∀ bs, (slotSnapshot m slots).read r.1 r.2 = some bs →
        bs = m.slice r.1 r.2) ↔
      ∀ s, slots.find? (·.holds r.1) = some s → s.TrueAt m r := by
  rw [slots_read]
  cases hs : slots.find? (·.holds r.1) with
  | none => exact ⟨fun _ => nofun, fun _ => nofun⟩
  | some s =>
    simp only [Option.bind_some, Option.some.injEq, forall_eq']
    by_cases hle : r.2 ≤ maxDataSize - (r.1 - s.place).toNat
    · rw [if_pos hle, ← chunk_served hle]
      exact ⟨fun h => h _ rfl, fun h bs hbs => h ▸ (Option.some.inj hbs).symm⟩
    · rw [if_neg hle]
      exact ⟨fun _ hle' => absurd hle' hle, fun _ => nofun⟩

/-- Then it is what the reader of memory returns. -/
theorem slots_agree (slots : List Slot) (r : Read) :
    trueRead m slots r.1 r.2 =
        (slotSnapshot m slots).read r.1 r.2 ↔
      ∀ s, slots.find? (·.holds r.1) = some s → s.TrueAt m r := by
  rw [← slots_sound, slots_read, trueRead]
  cases hs : slots.find? (·.holds r.1) with
  | none => exact ⟨fun _ => nofun, fun _ => rfl⟩
  | some s =>
    dsimp only [Option.bind_some]
    split
    · rw [Option.some.injEq]
      exact ⟨fun h bs hbs => h ▸ (Option.some.inj hbs).symm, fun h => (h _ rfl).symm⟩
    · exact ⟨fun _ => nofun, fun _ => rfl⟩

end

/-! ## Slots of captures -/

/-- The slots of captures that are put at these places. -/
def slotsOf (regs : Uprobe.Reg → UInt64) (m : Memory) :
    List UInt64 → List ArgSpec → List LeafData → List Slot
  | place :: places, s :: specs, leaf :: captures =>
    if leaf.stored place then
      ⟨place, leafAddr regs m s, s.size.toNat⟩ :: slotsOf regs m places specs captures
    else slotsOf regs m places specs captures
  | _, _, _ => []

/-- A capture that was fetched is the slot of its place. -/
theorem Fetchable.data {regs : PtRegs} {u : UserMemory} {itab : Bool} {s : ArgSpec}
    {leaf : LeafData} {place : UInt64} (hok : Fetchable itab s) (h : Fetched regs u s leaf)
    (hstored : leaf.stored place = true) :
    leaf.data = (Slot.chunk u.mem ⟨place, leafAddr regs.reg u.mem s, s.size.toNat⟩).data := by
  obtain ⟨hnil, havail⟩ : leaf.isNil = false ∧ leaf.unavailable = false := by
    simp only [LeafData.stored, Bool.not_eq_true', Bool.or_eq_false_iff] at hstored
    exact ⟨hstored.1.2, hstored.1.1.2⟩
  have hmax : maxDataSize = 64 := rfl
  have hsize : 0 ≤ s.size ∧ s.size ≤ maxDataSize := by
    rcases hok.1 with hblob | ⟨-, hword⟩
    · have hblob' : s.size = 64 := hblob
      omega
    · omega
  have hbytes := h.bytes hok.2 hsize.1 hsize.2 hnil havail
  refine List.ext_getElem (by rw [h.length, chunk_length]) fun j hj _ => ?_
  simp only [Slot.chunk, List.getElem_map, List.getElem_range, Slot.byte, hbytes]
  split
  · rename_i hlt
    rw [List.getElem_append_left (by rw [Memory.slice_length]; exact hlt), Memory.slice_getElem]
  · rename_i hge
    rw [List.getElem_append_right (by rw [Memory.slice_length]; omega), List.getElem_replicate]

/-- The snapshot of captures is that of their slots. -/
theorem putAll_slots {regs : PtRegs} {u : UserMemory} {itab : Bool} {places : List UInt64}
    {specs : List ArgSpec} {captures : List LeafData}
    (hok : List.Forall₂ (fun place s => place = 0 ∨ Fetchable itab s) places specs)
    (hfetched : List.Forall₂ (Fetched regs u) specs captures) (snap : MemSnapshot) :
    (putAll places captures snap).chunks =
      snap.chunks ++ (slotsOf regs.reg u.mem places specs captures).map (Slot.chunk u.mem) := by
  induction hok generalizing captures snap with
  | nil => exact (List.append_nil _).symm
  | @cons place s places specs hplace _ ih =>
    obtain ⟨leaf, captures, hleaf, hrest, rfl⟩ := List.forall₂_cons_left_iff.mp hfetched
    rw [putAll, ih hrest, slotsOf, MemSnapshot.put]
    split
    · rename_i hstored
      have hok : Fetchable itab s := by
        refine hplace.resolve_left fun hzero => ?_
        simp [LeafData.stored, hzero] at hstored
      rw [List.map_cons, List.append_assoc, List.singleton_append, hok.data hleaf hstored]
      rfl
    · rfl

/-! ## Renderings -/

/-- The values of an event of a planned probe, with the recipes that were installed in the
programs when it was captured and those that are known when it is rendered. -/
def eventRenderings (typeRecipes : UInt64 → Option Bpf.TypeRecipe) (recipes : Recipes)
    (rename : String → String) (vars : List Variable) (regs : PtRegs) (u : UserMemory)
    (rules : ArgRules) : List Rendering :=
  renderings recipes (eventLeaves typeRecipes regs u rules)
    (planEach rename vars {}).reduceOption (.start (derive rename vars).2)

/-- The values of an event of a planned probe, without recipes. -/
def plainRenderings (rename : String → String) (vars : List Variable) (regs : PtRegs)
    (u : UserMemory) (rules : ArgRules) : List Rendering :=
  renderings noRecipes (eventLeaves noTypeRecipes regs u rules)
    (planEach rename vars {}).reduceOption (.start (derive rename vars).2)

/-- The call that renders a value. -/
def Rendering.subject (x : Rendering) : Option Call :=
  Tracing.subject x.planned.value.type x.words x.captures

/-- The slots of the captures of a value. -/
def Rendering.slots (regs : Uprobe.Reg → UInt64) (m : Memory) (x : Rendering) : List Slot :=
  slotsOf regs m (places x.planned.value.type x.words x.captures)
    (x.planned.emitted.drop x.planned.value.wordCount) x.captures

/-- The reads that `renderAuto` makes before it renders, in the object of a pointer. -/
def Rendering.nestedReads (x : Rendering) (c : Call) : List Read :=
  if x.planned.value.type.underlying.isPtr then c.type.nestedReads c.data else []

/-- Every read of the snapshot that succeeds while a value is rendered returns the target's
memory. -/
def SoundReads (m : Memory) (env : RenderEnv) (x : Rendering) : Prop :=
  ∀ lead ty data addr snap, x.prepared = .dynamic lead ty data addr snap →
    ∀ r ∈ x.nestedReads ⟨ty, data, addr⟩ ++
        (Call.mk ty data addr).reads env snap.read maxDynamicDepth,
      ∀ bs, snap.read r.1 r.2 = some bs → bs = m.slice r.1 r.2

/-- On the walk that is served memory, the first slot that holds the first byte of a read has
memory for it. -/
def SlotsTrue (regs : Uprobe.Reg → UInt64) (m : Memory) (env : RenderEnv) (x : Rendering) :
    Prop :=
  ∀ c, x.subject = some c →
    ∀ r ∈ x.nestedReads c ++ c.reads env (trueRead m (x.slots regs m)) maxDynamicDepth,
      ∀ s, (x.slots regs m).find? (·.holds r.1) = some s → s.TrueAt m r

/-- What is known of a rendered value: it is a kept one, with the leaves fetched for it. -/
structure RenderedKept (recipes : Recipes) (regs : PtRegs) (u : UserMemory) (data : List LeafData)
    (x : Rendering) (k : Kept) : Prop where
  planned : x.planned = k.planned
  regular : k.type.regular = true
  inRange : k.word + k.type.leafWords ≤ abiRegs.length
  length : x.words.length = k.type.leafWords
  fetched : List.Forall₂ (Fetched regs u) k.layout (x.words ++ x.captures)
  prepared : ∃ cur cur', Uprobe.prepareLeaves recipes k.value x.words x.captures data cur =
    (x.prepared, cur')

theorem eventRenderings_kept {rename : String → String} {vars : List Variable}
    (hregular : ∀ v ∈ vars, v.type.regular = true) {rules : ArgRules}
    (hrules : encodeArgs (derive rename vars).1 = .ok rules)
    (typeRecipes : UInt64 → Option Bpf.TypeRecipe) (recipes : Recipes) (regs : PtRegs)
    (u : UserMemory) :
    ∀ x ∈ eventRenderings typeRecipes recipes rename vars regs u rules,
      ∃ k ∈ (keep rename vars 0 0).reduceOption,
        RenderedKept recipes regs u (eventLeaves typeRecipes regs u rules) x k := by
  obtain ⟨-, -, heach⟩ := Uprobe.planAll_keep rename hregular (c := {}) (Nat.le_refl _)
  obtain ⟨hbounds, -⟩ := Uprobe.keep_bounds rename hregular (Nat.le_refl 0)
  have hplanned : (planEach rename vars {}).reduceOption =
      (keep rename vars 0 0).reduceOption.map Kept.planned := by
    rw [heach, List.reduceOption_map]
    rfl
  have hlen : maxFetchArgs < abiRegs.length := by decide
  have hspecs : (derive rename vars).1.map unmarked =
      ((planEach rename vars {}).reduceOption.flatMap Planned.emitted).map ArgSpec.fetchArg := by
    rw [Uprobe.derive_fst hregular, unmarked_markIfaceSlots, unmarked_fetchArg, hplanned,
      List.flatMap_map]
    rfl
  have hps : ∀ p ∈ (planEach rename vars {}).reduceOption,
      p.value.leafCount ≠ 0 ∧ p.emitted.length = p.value.leafCount := by
    rw [hplanned]
    intro p hp
    obtain ⟨k, hk, rfl⟩ := List.mem_map.mp hp
    refine ⟨?_, DType.layout_length _ _ _⟩
    have hpos := (hbounds k hk).2
    change k.type.leafWords + k.type.captureCount ≠ 0
    omega
  obtain ⟨extra, hextra⟩ := eventLeaves_extends typeRecipes regs u rules
  have hdata : (eventLeaves typeRecipes regs u rules).drop
      (Cursor.start (derive rename vars).2).cur =
        eventLeaves noTypeRecipes regs u rules ++ extra := hextra
  intro x hx
  obtain ⟨hmem, hlength, hfetched, hprep⟩ := renderings_fetched recipes hps
    (fetched_leaves hrules hspecs) hdata x hx
  rw [hplanned] at hmem
  obtain ⟨k, hk, hxk⟩ := List.mem_map.mp hmem
  rw [← hxk] at hlength hfetched hprep
  obtain ⟨v, hv, htype⟩ := Uprobe.keep_type rename k hk
  exact ⟨k, hk, hxk.symm, htype ▸ hregular v hv, by have h := (hbounds k hk).1; omega, hlength,
    hfetched, hprep⟩

theorem plainRenderings_kept {rename : String → String} {vars : List Variable}
    (hregular : ∀ v ∈ vars, v.type.regular = true) {rules : ArgRules}
    (hrules : encodeArgs (derive rename vars).1 = .ok rules) (regs : PtRegs) (u : UserMemory) :
    ∀ x ∈ plainRenderings rename vars regs u rules,
      ∃ k ∈ (keep rename vars 0 0).reduceOption,
        RenderedKept noRecipes regs u (eventLeaves noTypeRecipes regs u rules) x k :=
  eventRenderings_kept hregular hrules noTypeRecipes noRecipes regs u

theorem RenderedKept.captured {recipes : Recipes} {regs : PtRegs} {u : UserMemory}
    {data : List LeafData} {x : Rendering} {k : Kept} (h : RenderedKept recipes regs u data x k) :
    Captured regs.reg u.mem k.name k.type k.word x.words x.captures :=
  captured_of_fetched h.inRange h.length h.fetched

/-- The capture leaves of a rendered value are fetched by their rules. -/
theorem RenderedKept.fetched_captures {recipes : Recipes} {regs : PtRegs} {u : UserMemory}
    {data : List LeafData} {x : Rendering} {k : Kept} (h : RenderedKept recipes regs u data x k) :
    List.Forall₂ (Fetched regs u) (k.type.captureSpecs k.name k.word) x.captures := by
  have hcaptures := List.forall₂_drop_append _ _ _ h.fetched
  rwa [h.length, Kept.layout, DType.layout,
    List.drop_left' (DType.wordSpecs_length _ _ _)] at hcaptures

section
variable {regs : PtRegs} {u : UserMemory} {data : List LeafData} {x : Rendering} {k : Kept}

theorem RenderedKept.prepares (h : RenderedKept noRecipes regs u data x k) :
    PreparesAs (places x.planned.value.type x.words x.captures) x.captures x.subject
      x.prepared := by
  obtain ⟨cur, cur', hprep⟩ := h.prepared
  have heq : PreparesAs (places k.type x.words x.captures) x.captures
      (Tracing.subject k.type x.words x.captures)
      (Uprobe.prepareLeaves noRecipes (k.type.value k.name) x.words x.captures data cur).1 :=
    prepareLeaves_eq k.name h.captured.count
  rw [Rendering.subject, h.planned]
  change Uprobe.prepareLeaves noRecipes (k.type.value k.name) _ _ _ _ = _ at hprep
  rwa [hprep] at heq

/-- The captures make up the snapshot of the slots. -/
theorem RenderedKept.snapshot (h : RenderedKept noRecipes regs u data x k) {c : Call}
    (hc : x.subject = some c) :
    putAll (places x.planned.value.type x.words x.captures) x.captures {} =
      slotSnapshot u.mem (x.slots regs.reg u.mem) := by
  rw [Rendering.subject, h.planned] at hc
  have hslots := putAll_slots (places_fetchable h.captured h.inRange hc) h.fetched_captures {}
  rw [Rendering.slots, h.planned, captureSpecs_planned]
  exact congrArg MemSnapshot.mk (hslots.trans (List.nil_append _))

/-- What is rendered over which snapshot. -/
theorem RenderedKept.rendered_iff (h : RenderedKept noRecipes regs u data x k) (c : Call)
    (snap : MemSnapshot) :
    (∃ lead, x.prepared = .dynamic lead c.type c.data c.addr snap) ↔
      x.subject = some c ∧ snap = slotSnapshot u.mem (x.slots regs.reg u.mem) := by
  constructor
  · rintro ⟨lead, hdyn⟩
    obtain ⟨hc, rfl⟩ := h.prepares.subject hdyn
    exact ⟨hc, h.snapshot hc⟩
  · rintro ⟨hc, rfl⟩
    rw [← h.snapshot hc]
    exact h.prepares.dynamic hc

end

/-- The walk that is served memory makes the reads of the walk over the snapshot, if either of
them finds memory in the slots. -/
theorem walk_sound {m : Memory} {env : RenderEnv} {slots : List Slot} {before : List Read}
    {c : Call} {fuel : Nat} :
    (∀ r ∈ before ++ c.reads env (slotSnapshot m slots).read fuel,
        ∀ bs, (slotSnapshot m slots).read r.1 r.2 = some bs → bs = m.slice r.1 r.2) ↔
      ∀ r ∈ before ++ c.reads env (trueRead m slots) fuel,
        ∀ s, slots.find? (·.holds r.1) = some s → s.TrueAt m r := by
  simp only [slots_sound, ← slots_agree, List.forall_mem_append]
  exact and_congr_right fun _ => Uprobe.agreeOn_reads_comm

theorem sub_add_toNat (addr base : UInt64) (i : Nat) :
    base + UInt64.ofNat ((addr - base).toNat + i) = addr + UInt64.ofNat i := by
  rw [UInt64.ofNat_add, UInt64.ofNat_toNat, ← UInt64.add_assoc, UInt64.add_comm base,
    UInt64.sub_add_cancel]

/-- A whole slot that was copied from its place has memory for every read. -/
theorem Slot.trueAt {m : Memory} {s : Slot} (hplace : s.place = s.source)
    (hsize : s.size = maxDataSize) (r : Read) : s.TrueAt m r := by
  intro hle i hi
  refine ⟨fun _ => ?_, fun hout => ?_⟩
  · rw [← hplace, sub_add_toNat]
  · omega

/-- Captures that are put where they were fetched make slots that were copied from their
places; only those of itabs are short. -/
theorem slotsOf_own {regs : Uprobe.Reg → UInt64} {m : Memory} {itab : Bool}
    {places : List UInt64} {specs : List ArgSpec}
    (h : List.Forall₂ (PutAt regs m (Fetchable itab)) places specs) (captures : List LeafData) :
    ∀ s ∈ slotsOf regs m places specs captures,
      s.place = s.source ∧ (itab = false → s.size = maxDataSize) := by
  induction h generalizing captures with
  | nil => exact nofun
  | @cons place s places specs hput _ ih =>
    cases captures with
    | nil => exact nofun
    | cons leaf captures =>
      rw [slotsOf]
      split
      · rename_i hstored
        refine List.forall_mem_cons.mpr ⟨?_, ih captures⟩
        rcases hput with rfl | ⟨rfl, hok⟩
        · cases hstored
        · refine ⟨rfl, fun hno => ?_⟩
          rcases hok.1 with hblob | ⟨hyes, -⟩
          · exact congrArg Int.toNat hblob
          · exact absurd (hno.symm.trans hyes) Bool.false_ne_true
      · exact ih captures

/-- Without an itab in the copy of the object, the snapshot serves nothing but the target's
memory, if the pointers of a struct in registers are found. -/
theorem snapshot_sound {rename : String → String} {vars : List Variable}
    (hregular : ∀ v ∈ vars, v.type.regular = true) {rules : ArgRules}
    (hrules : encodeArgs (derive rename vars).1 = .ok rules) {regs : PtRegs} {u : UserMemory}
    {x : Rendering} (hx : x ∈ plainRenderings rename vars regs u rules)
    (hfound : PointersFound x.planned.value.type (Uprobe.concatLeaves x.words))
    (hitab : pointsToItab x.planned.value.type = false) {lead : String} {ty : DType}
    {data : List UInt8} {addr : UInt64} {snap : MemSnapshot}
    (hdyn : x.prepared = .dynamic lead ty data addr snap) {a : UInt64} {n : Nat} {bs : List UInt8}
    (hbs : snap.read a n = some bs) : bs = u.mem.slice a n := by
  obtain ⟨k, -, hk⟩ := plainRenderings_kept hregular hrules regs u x hx
  obtain ⟨hc, rfl⟩ := (hk.rendered_iff ⟨ty, data, addr⟩ snap).mp ⟨lead, hdyn⟩
  rw [Rendering.subject, hk.planned] at hc
  rw [hk.planned] at hfound hitab
  have hown : ∀ s ∈ x.slots regs.reg u.mem, s.place = s.source ∧ s.size = maxDataSize := by
    rw [Rendering.slots, hk.planned, captureSpecs_planned]
    exact fun s hs => (slotsOf_own (places_addr hk.captured hk.inRange hfound hc) x.captures s
      hs).imp_right (· hitab)
  refine (slots_sound (x.slots regs.reg u.mem) (a, n)).mpr (fun s hs => ?_) bs hbs
  obtain ⟨hplace, hsize⟩ := hown s (List.mem_of_find?_eq_some hs)
  exact Slot.trueAt hplace hsize _

def emptyText : Uprobe.GoText where
  quote := fun _ => ""
  formatFloat32 := fun _ => ""
  formatFloat64 := fun _ => ""
  sprintFloat32 := fun _ => ""
  sprintFloat64 := fun _ => ""
  ofBytes := fun _ => ""
  isExported := fun _ => true

def unresolved : RenderEnv where
  text := emptyText
  resolveType := fun _ => none
  hideUnexported := false

/-- The first argument register holds `0x1000`. -/
def objectRegs : PtRegs where
  ip := 0
  reg := fun r => if r = .ax then 0x1000 else 0

/-- The first two argument registers hold a string of three bytes. -/
def stringRegs : PtRegs where
  ip := 0
  reg := fun r => if r = .ax then 0x1000 else if r = .bx then 3 else 0

def errorType : DType :=
  .struct "error" "runtime.iface" 16
    (.cons "tab" 0 (.ptr "*runtime.itab" 8 (.other "" "runtime.itab" 32))
      (.cons "data" 8 (.ptr "unsafe.Pointer" 8 (.other "" "void" 0)) .nil))

/-- `struct { a, b error }`. -/
def twoErrors : DType :=
  .struct "main.S" "main.S" 32 (.cons "a" 0 errorType (.cons "b" 16 errorType .nil))

/-- An object at `0x1000` whose errors have their itabs at `0x2000` and `0x2020`, for the
types at `0x100` and `0x200`. -/
def itabMemory : UserMemory where
  mem := fun a =>
    if a = 0x1001 ∨ a = 0x1010 ∨ a = 0x1011 then 0x20
    else if a = 0x2009 then 1
    else if a = 0x2029 then 2
    else 0
  fails := fun _ _ => false

end GoFtrace.Tracing
