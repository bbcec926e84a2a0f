import GoFtrace.Tracing.Places
import GoFtrace.Uprobe.Registers

/-!
# Leaves of a plan

The planner emits the leaves of a value one after the other, and the renderer takes them
back with one cursor. The captures among them are put in the snapshot where the words of
the value point to.

* `takenLeaves_slices`: the renderer takes the leaves that were emitted for a value.
* `prepareLeaves_extends`: recipe leaves only follow the captures in the snapshot.
* `derive_sameLeaves`: exactly when each capture is put where it was fetched from.
-/

namespace GoFtrace.Tracing

open Lib (Memory word)
open Uprobe (DType Fields structKind ArgSpec FetchArg LeafData MemSnapshot Value Variable Planned
  Prepared Cursor Recipes Kept abiRegs keep planEach derive maxFetchArgs)

/-! ## Slices -/

/-- The words and the captures that `renderAuto` cuts out for a value. -/
def takeLeaves (v : Value) (data : List LeafData) (cur : Nat) : List LeafData × List LeafData :=
  ((data.drop cur).take v.wordCount, (data.drop (cur + v.wordCount)).take v.captures)

/-- The words and the captures of every value that `RenderValuesOpts` renders. -/
def takenLeaves (recipes : Recipes) (data : List LeafData) :
    List Value → Cursor → List (List LeafData × List LeafData)
  | [], _ => []
  | v :: vs, k =>
    takeLeaves v data k.cur :: takenLeaves recipes data vs (Uprobe.prepare recipes v data k).2

/-- The leaves taken for each value belong to the fetch arguments emitted for it. -/
inductive Slices :
    List FetchArg → List LeafData → List (List LeafData × List LeafData) → List Planned → Prop
  | nil {data} : Slices [] data [] []
  | cons {p : Planned} {words captures args data taken planned}
      (hwords : words.length = p.value.wordCount)
      (hcaptures : captures.length = p.value.captures)
      (hemitted : p.emitted.length = p.value.wordCount + p.value.captures)
      (h : Slices args data taken planned) :
      Slices (p.emitted.map ArgSpec.fetchArg ++ args) (words ++ captures ++ data)
        ((words, captures) :: taken) (p :: planned)

/-- A fetch argument before `markIfaceSlots`. -/
def unmarked (a : FetchArg) : FetchArg := { a with ifaceData := false, typeIndex := 0 }

theorem unmarked_markIfaceSlots (args : List FetchArg) :
    (Uprobe.markIfaceSlots args).map unmarked = args.map unmarked := by
  rw [Uprobe.markIfaceSlots, List.map_map]
  refine List.map_congr_left fun a _ => ?_
  dsimp only [Function.comp]
  split
  · split <;> rfl
  · rfl

theorem unmarked_fetchArg (specs : List ArgSpec) :
    (specs.map ArgSpec.fetchArg).map unmarked = specs.map ArgSpec.fetchArg := by
  rw [List.map_map]
  rfl

/-! ## Recipe leaves -/

/-- Recipes leave the cursor of the planned leaves alone and put their leaves last. -/
structure AfterRecipes (k : Cursor) (snap : MemSnapshot) (result : Cursor × MemSnapshot) :
    Prop where
  cur : result.1.cur = k.cur
  chunks : snap.chunks <+: result.2.chunks

theorem AfterRecipes.refl (k : Cursor) (snap : MemSnapshot) : AfterRecipes k snap (k, snap) :=
  ⟨rfl, List.prefix_refl _⟩

theorem AfterRecipes.trans {k k' : Cursor} {snap snap' : MemSnapshot}
    {result : Cursor × MemSnapshot} (h : AfterRecipes k snap (k', snap'))
    (h' : AfterRecipes k' snap' result) : AfterRecipes k snap result :=
  ⟨h'.cur.trans h.cur, h.chunks.trans h'.chunks⟩

theorem put_chunks (snap : MemSnapshot) (addr : UInt64) (leaf : LeafData) :
    snap.chunks <+: (snap.put addr leaf).chunks := by
  unfold MemSnapshot.put
  split
  · exact List.prefix_append _ _
  · exact List.prefix_refl _

theorem applyRules_after (dataPtr : UInt64) (all : List LeafData) (rules : List Uprobe.RelRule)
    (k : Cursor) (snap : MemSnapshot) :
    AfterRecipes k snap (Uprobe.applyRules dataPtr all rules k snap) := by
  induction rules generalizing k snap with
  | nil => exact .refl k snap
  | cons r rules ih =>
    rw [Uprobe.applyRules]
    split
    · exact .refl k snap
    · exact ⟨(ih _ _).cur, (put_chunks snap _ _).trans (ih _ _).chunks⟩

section
variable (recipes : Recipes) (all : List LeafData)

theorem applyRecipeExtras_after (typeAddr dataPtr : UInt64) (k : Cursor) (snap : MemSnapshot) :
    AfterRecipes k snap (Uprobe.applyRecipeExtras recipes typeAddr dataPtr all k snap) := by
  unfold Uprobe.applyRecipeExtras
  split
  · exact .refl k snap
  · exact applyRules_after dataPtr all _ k snap

mutual

theorem applyNestedRecipes_after : ∀ (t : DType) (mem : List UInt8) (k : Cursor)
    (snap : MemSnapshot), AfterRecipes k snap (t.applyNestedRecipes recipes all mem k snap)
  | .typedef _ t, mem, k, snap => applyNestedRecipes_after t mem k snap
  | .qual _ t, mem, k, snap => applyNestedRecipes_after t mem k snap
  | .struct _ s _ fs, mem, k, snap => by
    rw [DType.applyNestedRecipes]
    split
    · exact applyRecipeExtras_after recipes all _ _ k snap
    · split
      · exact .refl k snap
      · exact applyFieldRecipes_after fs mem k snap
  | .ptr _ _ _, _, k, snap => .refl k snap
  | .basic _ _ _, _, k, snap => .refl k snap
  | .func _ _ _, _, k, snap => .refl k snap
  | .other _ _ _, _, k, snap => .refl k snap

theorem applyFieldRecipes_after : ∀ (fs : Fields) (mem : List UInt8) (k : Cursor)
    (snap : MemSnapshot), AfterRecipes k snap (fs.applyNestedRecipes recipes all mem k snap)
  | .nil, _, k, snap => .refl k snap
  | .cons _ off t rest, mem, k, snap => by
    rw [Fields.applyNestedRecipes]
    exact (applyNestedRecipes_after t _ k snap).trans (applyFieldRecipes_after rest mem _ _)

end

/-- What `renderAuto` prepares with recipes, compared with what it prepares without. -/
structure Extends (k : Cursor) (plain result : Prepared × Cursor) : Prop where
  cur : result.2.cur = k.cur
  dynamic : ∀ {lead ty data addr snap}, result.1 = .dynamic lead ty data addr snap →
    ∃ snap₀, plain.1 = .dynamic lead ty data addr snap₀ ∧ snap₀.chunks <+: snap.chunks

theorem Extends.text (k : Cursor) (s : String) (plain : Prepared × Cursor) :
    Extends k plain (.text s, k) := ⟨rfl, nofun⟩

theorem Extends.same (k : Cursor) (p : Prepared) (k₀ : Cursor) : Extends k (p, k₀) (p, k) :=
  ⟨rfl, fun h => ⟨_, h, List.prefix_refl _⟩⟩

theorem AfterRecipes.extends {k : Cursor} {snap : MemSnapshot} {result : Cursor × MemSnapshot}
    (h : AfterRecipes k snap result) (k₀ : Cursor) (lead : String) (ty : DType)
    (data : List UInt8) (addr : UInt64) :
    Extends k (.dynamic lead ty data addr snap, k₀)
      (.dynamic lead ty data addr result.2, result.1) := by
  refine ⟨h.cur, fun heq => ?_⟩
  cases heq
  exact ⟨snap, rfl, h.chunks⟩

theorem preparePointer_extends (t elem : DType) (header : List UInt8) (captures : List LeafData)
    (k : Cursor) :
    Extends k (Uprobe.preparePointer noRecipes t elem header captures all k)
      (Uprobe.preparePointer recipes t elem header captures all k) := by
  unfold Uprobe.preparePointer
  dsimp only
  split
  · exact .text k _ _
  split
  · split
    · exact .text k _ _
    · split
      · exact .text k _ _
      · rw [applyNestedRecipes_noRecipes]
        exact (applyNestedRecipes_after recipes all elem _ k _).extends k _ _ _ _
  · exact .text k _ _

theorem prepareStruct_extends (t : DType) (kind : Uprobe.StructKind) (header : List UInt8)
    (captures : List LeafData) (k : Cursor) :
    Extends k (Uprobe.prepareStruct noRecipes t kind header captures all k)
      (Uprobe.prepareStruct recipes t kind header captures all k) := by
  cases kind with
  | plain => exact .same k _ k
  | string => exact .same k _ k
  | slice => exact .same k _ k
  | iface nonEmpty =>
    rw [Uprobe.prepareStruct, Uprobe.prepareStruct]
    dsimp only
    split
    · rw [applyRecipeExtras_noRecipes]
      exact (applyRecipeExtras_after recipes all _ _ k _).extends k _ _ _ _
    · exact .same k _ k

/-- Recipe leaves only follow the captures in the snapshot. -/
theorem prepareLeaves_extends (v : Value) (words captures : List LeafData) (k : Cursor) :
    Extends k (Uprobe.prepareLeaves noRecipes v words captures all k)
      (Uprobe.prepareLeaves recipes v words captures all k) := by
  unfold Uprobe.prepareLeaves
  extract_lets t ifaceNil objNil header
  clear_value ifaceNil objNil
  split
  · exact .text k _ _
  split
  · exact .text k _ _
  split
  · exact .text k _ _
  split
  · exact .text k _ _
  cases t with
  | ptr n b elem => exact preparePointer_extends recipes all _ elem header captures k
  | struct n s b fs => exact prepareStruct_extends recipes all _ _ header captures k
  | _ => exact .same k _ k

/-- A value that finds its leaves moves the cursor past them. -/
theorem prepare_cur {v : Value} {k : Cursor} (hpos : v.leafCount ≠ 0)
    (hfit : k.cur + v.leafCount ≤ all.length) :
    Uprobe.prepare recipes v all k = Uprobe.prepareLeaves recipes v (takeLeaves v all k.cur).1
        (takeLeaves v all k.cur).2 all { k with cur := k.cur + v.leafCount } ∧
      (Uprobe.prepare recipes v all k).2.cur = k.cur + v.leafCount := by
  have hprep : Uprobe.prepare recipes v all k =
      Uprobe.prepareLeaves recipes v (takeLeaves v all k.cur).1 (takeLeaves v all k.cur).2 all
        { k with cur := k.cur + v.leafCount } := by
    rw [Uprobe.prepare]
    dsimp only
    rw [if_neg (by omega)]
    rfl
  exact ⟨hprep, by rw [hprep]; exact (prepareLeaves_extends recipes all v _ _ _).cur⟩

omit recipes in
theorem takeLeaves_append (v : Value) {cur : Nat} (hfit : cur + v.leafCount ≤ all.length) :
    (takeLeaves v all cur).1.length = v.wordCount ∧
      (takeLeaves v all cur).2.length = v.captures ∧
      all.drop cur = (takeLeaves v all cur).1 ++ (takeLeaves v all cur).2 ++
        all.drop (cur + v.leafCount) := by
  have hcount : v.leafCount = v.wordCount + v.captures := rfl
  rw [takeLeaves, hcount, ← Nat.add_assoc, List.append_assoc]
  dsimp only
  refine ⟨?_, ?_, ?_⟩
  · rw [List.length_take, List.length_drop]
    omega
  · rw [List.length_take, List.length_drop]
    omega
  · rw [← List.drop_drop (i := v.captures), List.take_append_drop, ← List.drop_drop,
      List.take_append_drop]

/-- The renderer takes the leaves that were emitted for a value. -/
theorem takenLeaves_slices {planned : List Planned}
    (hplanned : ∀ p ∈ planned, p.value.leafCount ≠ 0 ∧ p.emitted.length = p.value.leafCount)
    {k : Cursor} (hfit : k.cur + (planned.map fun p => p.value.leafCount).sum ≤ all.length) :
    Slices (planned.flatMap fun p => p.emitted.map ArgSpec.fetchArg) (all.drop k.cur)
      (takenLeaves recipes all (planned.map Planned.value) k) planned := by
  induction planned generalizing k with
  | nil => exact .nil
  | cons p planned ih =>
    obtain ⟨⟨hpos, hemitted⟩, hrest⟩ := List.forall_mem_cons.mp hplanned
    rw [List.map_cons, List.sum_cons] at hfit
    obtain ⟨-, hcur⟩ := prepare_cur recipes all hpos (v := p.value) (k := k) (by omega)
    obtain ⟨hwords, hcaptures, hdata⟩ := @takeLeaves_append all p.value k.cur (by omega)
    have htail := ih hrest (k := (Uprobe.prepare recipes p.value all k).2) (by rw [hcur]; omega)
    rw [hcur] at htail
    rw [hdata]
    exact .cons hwords hcaptures hemitted htail

end

/-! ## Captures that are put elsewhere -/

/-- Where the chunks of a snapshot come from. -/
theorem puts_chunks {regs : Uprobe.Reg → UInt64} {m : Memory} {ok : ArgSpec → Prop}
    {specs : List ArgSpec} {leaves : List LeafData} {snap snap' : MemSnapshot}
    (h : Puts regs m ok specs leaves snap snap') : ∀ c ∈ snap'.chunks, c ∈ snap.chunks ∨
      ∃ q ∈ specs.zip leaves, ok q.1 ∧ q.2.stored (leafAddr regs m q.1) = true ∧
        c = { addr := leafAddr regs m q.1, data := q.2.data } := by
  induction h with
  | nil => exact fun c hc => .inl hc
  | skip _ ih =>
    intro c hc
    rcases ih c hc with hold | ⟨q, hq, hput⟩
    · exact .inl hold
    · exact .inr ⟨q, List.mem_cons_of_mem _ hq, hput⟩
  | @put s specs leaf leaves snap snap' hok _ ih =>
    intro c hc
    rcases ih c hc with hold | ⟨q, hq, hput⟩
    · unfold MemSnapshot.put at hold
      split at hold
      · rename_i hstored
        rcases List.mem_append.mp hold with hold | hnew
        · exact .inl hold
        · exact .inr ⟨(s, leaf), List.mem_cons_self, hok, hstored, List.mem_singleton.mp hnew⟩
      · exact .inl hold
    · exact .inr ⟨q, List.mem_cons_of_mem _ hq, hput⟩

theorem putAll_subset (addrs : List UInt64) (leaves : List LeafData) (snap : MemSnapshot) :
    snap.chunks ⊆ (putAll addrs leaves snap).chunks := by
  induction addrs generalizing leaves snap with
  | nil => exact List.Subset.refl _
  | cons addr addrs ih =>
    cases leaves with
    | nil => exact List.Subset.refl _
    | cons leaf leaves => exact List.Subset.trans (put_chunks snap addr leaf).subset (ih leaves _)

/-- Leaves that hold something are in the snapshot. -/
theorem putAll_mem {addrs : List UInt64} {leaves : List LeafData} {q : UInt64 × LeafData}
    (hq : q ∈ addrs.zip leaves) (hstored : q.2.stored q.1 = true) (snap : MemSnapshot) :
    { addr := q.1, data := q.2.data } ∈ (putAll addrs leaves snap).chunks := by
  induction addrs generalizing leaves snap with
  | nil => cases hq
  | cons addr addrs ih =>
    cases leaves with
    | nil => cases hq
    | cons leaf leaves =>
      rw [List.zip_cons_cons] at hq
      rw [putAll]
      rcases List.mem_cons.mp hq with rfl | hq
      · refine putAll_subset addrs leaves _ ?_
        rw [MemSnapshot.put, if_pos hstored]
        exact List.mem_append_right _ (List.mem_singleton_self _)
      · exact ih hq _

/-- Leaves that can be told apart by their lengths. -/
def distinctLeaves (n : Nat) : List LeafData :=
  (List.range n).map fun i => { data := List.replicate (i + 1) 0 }

@[simp] theorem distinctLeaves_length (n : Nat) : (distinctLeaves n).length = n := by
  rw [distinctLeaves, List.length_map, List.length_range]

theorem distinctLeaves_getElem {n i : Nat} (hi : i < (distinctLeaves n).length) :
    (distinctLeaves n)[i] = { data := List.replicate (i + 1) 0 } := by
  simp only [distinctLeaves, List.getElem_map, List.getElem_range]

/-- Leaves that differ show where each of them was put. -/
theorem puts_distinct {regs : Uprobe.Reg → UInt64} {m : Memory} {ok : ArgSpec → Prop}
    {specs : List ArgSpec} {addrs : List UInt64} (hlen : addrs.length = specs.length)
    (h : Puts regs m ok specs (distinctLeaves specs.length) {}
      (putAll addrs (distinctLeaves specs.length) {})) :
    List.Forall₂ (fun addr s => addr = 0 ∨ addr = leafAddr regs m s) addrs specs := by
  refine List.forall₂_iff_get.mpr ⟨hlen, fun i hi hi' => ?_⟩
  by_cases hzero : addrs[i] = 0
  · exact .inl hzero
  right
  have hleaf : i < (distinctLeaves specs.length).length := by rwa [distinctLeaves_length]
  have hmem := putAll_mem (q := (addrs[i], (distinctLeaves specs.length)[i]))
    (List.mem_iff_getElem.mpr ⟨i, by rw [List.length_zip]; omega, List.getElem_zip⟩)
    (by simp [LeafData.stored, hzero, distinctLeaves_getElem hleaf]) {}
  rcases puts_chunks h _ hmem with hnone | ⟨q, hq, -, -, heq⟩
  · cases hnone
  · obtain ⟨j, hj, rfl⟩ := List.mem_iff_getElem.mp hq
    rw [List.length_zip, distinctLeaves_length, Nat.min_self] at hj
    rw [List.getElem_zip] at heq
    obtain ⟨haddr, hdata⟩ := (Uprobe.SnapChunk.mk.injEq _ _ _ _).mp heq
    dsimp only at haddr hdata
    rw [distinctLeaves_getElem, distinctLeaves_getElem] at hdata
    have hij : i = j := by
      have hsize := congrArg List.length hdata
      simpa only [List.length_replicate, Nat.add_right_cancel_iff] using hsize
    subst hij
    exact haddr

/-- Word leaves with given bytes. -/
def wordLeaves : Nat → List UInt8 → List LeafData
  | 0, _ => []
  | n + 1, bytes => { data := bytes.take 8 } :: wordLeaves n (bytes.drop 8)

theorem concatLeaves_wordLeaves {n : Nat} {bytes : List UInt8} (hlen : bytes.length = 8 * n) :
    Uprobe.concatLeaves (wordLeaves n bytes) = bytes := by
  induction n generalizing bytes with
  | zero => exact (List.length_eq_zero_iff.mp hlen).symm
  | succ n ih =>
    have hrest : Uprobe.concatLeaves (wordLeaves n (bytes.drop 8)) = bytes.drop 8 :=
      ih (by rw [List.length_drop]; omega)
    rw [Uprobe.concatLeaves] at hrest
    rw [wordLeaves, Uprobe.concatLeaves, List.flatMap_cons, hrest, List.take_take, Nat.min_self,
      List.take_append_drop]

theorem wordLeaves_available (n : Nat) (bytes : List UInt8) :
    (wordLeaves n bytes).any (·.unavailable) = false := by
  induction n generalizing bytes with
  | zero => rfl
  | succ n ih => exact ih (bytes.drop 8)

/-- The registers that hold given words, from register `w` on. -/
def wordRegs (w : Nat) (bytes : List UInt8) (r : Uprobe.Reg) : UInt64 :=
  word ((bytes.drop (8 * (abiRegs.idxOf r - w))).take 8)

theorem wordRegs_get {w i : Nat} {r : Uprobe.Reg} (h : abiRegs[w + i]? = some r)
    (bytes : List UInt8) : wordRegs w bytes r = word ((bytes.drop (8 * i)).take 8) := by
  obtain ⟨hlt, rfl⟩ := List.getElem?_eq_some_iff.mp h
  have hne : abiRegs.Nodup := by decide
  rw [wordRegs, hne.idxOf_getElem, Nat.add_sub_cancel_left]

theorem holdsWords_wordLeaves {regs : Uprobe.Reg → UInt64} {specs : List ArgSpec} {w n : Nat}
    {bytes : List UInt8}
    (hspecs : specs.map (fun s => s.fetchArg.baseReg) = Uprobe.regsFrom w n)
    (hin : w + n ≤ abiRegs.length) (hlen : bytes.length = 8 * n)
    (hregs : ∀ i r, abiRegs[w + i]? = some r → regs r = word ((bytes.drop (8 * i)).take 8)) :
    HoldsWords regs specs (wordLeaves n bytes) := by
  induction n generalizing specs w bytes with
  | zero =>
    obtain rfl := List.map_eq_nil_iff.mp hspecs
    exact .nil
  | succ n ih =>
    rw [Uprobe.regsFrom, List.range'_succ, List.map_cons] at hspecs
    obtain ⟨s, specs, rfl, hs, hspecs⟩ := List.map_eq_cons_iff.mp hspecs
    refine .cons ⟨by rw [List.length_take]; omega, fun r hr => ?_⟩ (ih hspecs (by omega)
      (by rw [List.length_drop]; omega) fun i r hr => ?_)
    · have hbase : s.fetchArg.baseReg = r := by rw [FetchArg.baseReg, hr]; rfl
      have hreg : abiRegs[w + 0]? = some abiRegs[w] := List.getElem?_eq_getElem (by omega)
      have hr' : r = some abiRegs[w] := hbase.symm.trans (hs.trans hreg)
      rw [hr', regValue, hregs 0 _ hreg]
      rfl
    · rw [hregs (i + 1) r (by rwa [Nat.add_right_comm] at hr), List.drop_drop]
      congr 3
      omega

section
variable {name : String} {t : DType} {w : Nat}

/-- What `renderAuto` prepares for a plain struct. -/
theorem prepareLeaves_plain {recipes : Uprobe.Recipes} {n s : String} {b : Int} {fs : Fields}
    {words captures : List LeafData} (hu : t.underlying = .struct n s b fs) (hkind : structKind s fs = .plain)
    (havail : words.any (·.unavailable) = false)
    (hsome : Uprobe.concatLeaves words ≠ []) (all : List LeafData) (k : Cursor) :
    Uprobe.prepareLeaves recipes (t.value name) words captures all k =
      (.dynamic "" t (Uprobe.scatterWords t (Uprobe.concatLeaves words)) 0
        (t.consumeRegCaptures (Uprobe.scatterWords t (Uprobe.concatLeaves words)) captures {}).2,
        k) := by
  obtain ⟨-, -, hiface⟩ := Uprobe.structKind_plain hkind
  unfold Uprobe.prepareLeaves
  simp only [DType.value, hu, Uprobe.DType.isInterfaceType, hiface, Bool.false_and,
    Uprobe.DType.isPtr, havail, Bool.false_eq_true, if_false]
  rw [if_neg (by simpa using hsome), hkind]
  rfl

/-- Words of a struct whose pointers are not found give a capture that is put elsewhere. -/
theorem exists_misplaced (m : Memory) {n s : String} {b : Int} {fs : Fields}
    (hu : t.underlying = .struct n s b fs) (hkind : structKind s fs = .plain)
    (hpos : 0 < t.leafWords) (hin : w + t.leafWords ≤ abiRegs.length) {bytes : List UInt8}
    (hlen : bytes.length = 8 * t.leafWords) (hbad : ¬ Uprobe.Agree t bytes) :
    ∃ regs words captures data snap, Captured regs m name t w words captures ∧
      (∀ all k, Uprobe.prepareLeaves noRecipes (t.value name) words captures all k =
        (.dynamic "" t data 0 snap, k)) ∧
      ¬ Puts regs m (fun _ => True) (t.captureSpecs name w) captures {} snap := by
  have hobj : t.underlying.objectPointee = none := by rw [hu]; rfl
  have hspecs : t.captureSpecs name w = (t.regJobs name w).map Uprobe.CaptureJob.spec := by
    rw [DType.captureSpecs, hobj]
  have hconcat := concatLeaves_wordLeaves hlen
  have hholds : HoldsWords (wordRegs w bytes) (t.wordSpecs name w) (wordLeaves t.leafWords bytes) :=
    holdsWords_wordLeaves (t.wordSpecs_baseReg name w) hin hlen fun i r hr => wordRegs_get hr bytes
  have haddr := ownPointers_addr (wordRegs w bytes) m name t w _ [] hholds
  rw [List.append_nil, hconcat, ← hspecs] at haddr
  refine ⟨wordRegs w bytes, wordLeaves t.leafWords bytes,
    distinctLeaves (t.captureSpecs name w).length, _, _,
    ⟨hholds, by rw [distinctLeaves_length, DType.captureSpecs_length], ?_⟩,
    prepareLeaves_plain hu hkind (wordLeaves_available _ _) ?_, fun hputs => hbad ?_⟩
  · rw [hobj]
    intro h
    cases h
  · rw [hconcat, ← List.length_pos_iff]
    omega
  · have hcons := consumeRegCaptures_eq t (Uprobe.scatterWords t bytes)
      (distinctLeaves (t.captureSpecs name w).length) [] {}
      (by rw [distinctLeaves_length, hspecs, List.length_map, DType.regJobs_length])
    rw [List.append_nil] at hcons
    rw [hconcat, hcons] at hputs
    have hplaces := puts_distinct (by rw [← haddr.length_eq, List.length_map,
      Uprobe.pointers_length, Uprobe.ownPointers_length]) hputs
    rw [List.forall₂_map_left_iff] at hplaces
    exact forall₂_comp (fun _ _ _ hplace hown => hown.symm ▸ hplace) hplaces haddr.flip

end

/-! ## Planner and renderer -/

/-- The words of a planned value hold the registers, and the copy of its object, if there is
one, holds the memory. -/
structure Holds (regs : Uprobe.Reg → UInt64) (m : Memory) (p : Planned)
    (words captures : List LeafData) : Prop where
  words : HoldsWords regs (p.emitted.take p.value.wordCount) words
  count : captures.length = p.value.captures
  object : p.value.type.underlying.objectPointee.isSome = true → ∀ s specs obj rest,
    p.emitted.drop p.value.wordCount = s :: specs → captures = obj :: rest →
    obj.isNil = false → obj.unavailable = false →
    obj.data = m.slice (leafAddr regs m s) Bpf.maxDataSize

/-- Every capture of a value that the renderer puts in the snapshot is put at the address
that its rule chain denotes. The recipe leaves follow. -/
def CapturesPut (p : Planned) : Prop :=
  ∀ (regs : Uprobe.Reg → UInt64) (m : Memory) (words captures : List LeafData),
    Holds regs m p words captures → ∀ (recipes : Recipes) (all : List LeafData) (k k' : Cursor)
    (lead : String) (ty : DType) (data : List UInt8) (addr : UInt64) (snap : MemSnapshot),
    Uprobe.prepareLeaves recipes p.value words captures all k =
      (.dynamic lead ty data addr snap, k') →
    ∃ snap₀ k₀, Uprobe.prepareLeaves noRecipes p.value words captures all k =
        (.dynamic lead ty data addr snap₀, k₀) ∧ snap₀.chunks <+: snap.chunks ∧
      Puts regs m (fun _ => True) (p.emitted.drop p.value.wordCount) captures {} snap₀

/-- Planner and renderer walk the same leaves. -/
structure SameLeaves (rename : String → String) (vars : List Variable) : Prop where
  values : (derive rename vars).2 = (planEach rename vars {}).reduceOption.map Planned.value
  count : ((derive rename vars).2.map Value.leafCount).sum = (derive rename vars).1.length
  limit : (derive rename vars).1.length ≤ maxFetchArgs
  slices : ∀ (recipes : Recipes) (data : List LeafData),
    (derive rename vars).1.length ≤ data.length →
    Slices ((derive rename vars).1.map unmarked) data
      (takenLeaves recipes data (derive rename vars).2 (.start (derive rename vars).2))
      (planEach rename vars {}).reduceOption
  captures : ∀ p ∈ (planEach rename vars {}).reduceOption, CapturesPut p

theorem holds_planned {regs : Uprobe.Reg → UInt64} {m : Memory} {k : Kept}
    {words captures : List LeafData} : Holds regs m k.planned words captures ↔
      Captured regs m k.name k.type k.word words captures := by
  have htake : k.layout.take k.type.leafWords = k.type.wordSpecs k.name k.word :=
    List.take_left' (DType.wordSpecs_length _ _ _)
  have hdrop : k.layout.drop k.type.leafWords = k.type.captureSpecs k.name k.word :=
    List.drop_left' (DType.wordSpecs_length _ _ _)
  have hobject : ∀ e, k.type.underlying.objectPointee = some e →
      k.type.captureSpecs k.name k.word =
        Uprobe.blobAt (k.name ++ ".obj") { reg := abiRegs[k.word]?, nilCheck := true } ::
          e.memCaptures k.name { reg := abiRegs[k.word]?, nilCheck := true } := by
    intro e he
    rw [DType.captureSpecs, he]
  constructor
  · rintro ⟨hwords, hcount, hobj⟩
    refine ⟨htake ▸ hwords, hcount, fun hsome obj rest hcaptures hnil havail => ?_⟩
    obtain ⟨e, he⟩ := Option.isSome_iff_exists.mp hsome
    rw [← leafAddr_blobAt_reg regs m (k.name ++ ".obj") abiRegs[k.word]? true]
    exact hobj hsome _ _ obj rest (hdrop.trans (hobject e he)) hcaptures hnil havail
  · rintro ⟨hwords, hcount, hobj⟩
    refine ⟨htake.symm ▸ hwords, hcount,
      fun hsome s specs obj rest hspecs hcaptures hnil havail => ?_⟩
    obtain ⟨e, he⟩ := Option.isSome_iff_exists.mp hsome
    obtain ⟨rfl, -⟩ := List.cons.inj (hspecs.symm.trans (hdrop.trans (hobject e he)))
    rw [leafAddr_blobAt_reg]
    exact hobj hsome obj rest hcaptures hnil havail

theorem captureSpecs_planned (k : Kept) :
    k.planned.emitted.drop k.planned.value.wordCount = k.type.captureSpecs k.name k.word :=
  List.drop_left' (DType.wordSpecs_length _ _ _)

/-- The captures of a kept value are put where they were fetched from exactly when its
pointers stay in place. -/
theorem capturesPut_iff {k : Kept} (hpos : 0 < k.type.leafWords)
    (hin : k.word + k.type.leafWords ≤ maxFetchArgs) :
    CapturesPut k.planned ↔ placed k.type = true := by
  have hsmall : 8 * k.type.leafWords < 256 := by
    have h8 : maxFetchArgs = 8 := rfl
    omega
  constructor
  · intro hput
    by_contra hno
    rw [placed] at hno
    split at hno
    · rename_i n s b fs hu
      obtain ⟨hkind, hbad⟩ : structKind s fs = .plain ∧ ¬ Uprobe.inPlace k.type = true := by
        simpa using hno
      rw [← Uprobe.agree_iff hsmall] at hbad
      push Not at hbad
      obtain ⟨bytes, hlen, hbad⟩ := hbad
      have hlen' : maxFetchArgs < abiRegs.length := by decide
      obtain ⟨regs, words, captures, data, snap, hheld, hprep, hnot⟩ :=
        @exists_misplaced k.name k.type k.word (fun _ => 0) n s b fs hu hkind hpos (by omega)
          bytes hlen hbad
      obtain ⟨snap₀, k₀, hplain, -, hputs⟩ := hput regs _ words captures
        (holds_planned.mpr hheld) noRecipes [] { extraCur := 0 } _ _ _ _ _ _ (hprep _ _)
      obtain ⟨h, -⟩ := Prod.mk.inj (hplain.symm.trans (hprep _ _))
      obtain rfl := (Prepared.dynamic.inj h).2.2.2.2
      rw [captureSpecs_planned] at hputs
      exact hnot hputs
    · exact hno rfl
  · intro hplaced regs m words captures hheld recipes all cur cur' lead ty data addr snap hprep
    obtain ⟨snap₀, hplain, hprefix⟩ :=
      (prepareLeaves_extends recipes all k.planned.value words captures cur).dynamic
        (congrArg Prod.fst hprep)
    refine ⟨snap₀, _, Prod.ext hplain rfl, hprefix, ?_⟩
    rw [captureSpecs_planned]
    have hcaptured := holds_planned.mp hheld
    have hlen : (Uprobe.concatLeaves words).length = 8 * k.type.leafWords := by
      rw [concatLeaves_length hcaptured.holds, DType.wordSpecs_length]
    have hregs : maxFetchArgs < abiRegs.length := by decide
    exact (prepareLeaves_puts hcaptured (by omega) (pointersFound_of_placed hsmall hplaced hlen)
      (Prod.ext hplain rfl)).mono fun _ _ => trivial

/-- Planner and renderer walk the same leaves exactly when the pointers of every struct
passed by value stay in place. -/
theorem derive_sameLeaves (rename : String → String) (vars : List Variable)
    (hregular : ∀ v ∈ vars, v.type.regular = true) :
    SameLeaves rename vars ↔
      ∀ k ∈ (keep rename vars 0 0).reduceOption, placed k.type = true := by
  obtain ⟨hout, hvalues, heach⟩ := Uprobe.planAll_keep rename hregular (c := {}) (Nat.le_refl _)
  obtain ⟨hbounds, -⟩ := Uprobe.keep_bounds rename hregular (Nat.le_refl 0)
  have hargs : (derive rename vars).1 = _ := Uprobe.derive_fst hregular
  have hplanned : (planEach rename vars {}).reduceOption =
      (keep rename vars 0 0).reduceOption.map Kept.planned := by
    rw [heach, List.reduceOption_map]
    rfl
  have hderived : (derive rename vars).2 =
      ((keep rename vars 0 0).reduceOption.map Kept.planned).map Planned.value := by
    rw [List.map_map]
    exact hvalues
  have hlayout : ((keep rename vars 0 0).reduceOption.flatMap Kept.layout).map ArgSpec.fetchArg =
      ((keep rename vars 0 0).reduceOption.map Kept.planned).flatMap
        fun p => p.emitted.map ArgSpec.fetchArg := by
    rw [List.map_flatMap, List.flatMap_map]
    rfl
  have hlength : (derive rename vars).1.length =
      ((keep rename vars 0 0).reduceOption.map fun k => k.type.leafNeed).sum := by
    rw [hargs, Uprobe.markIfaceSlots, List.length_map, List.length_map, List.length_flatMap]
    exact congrArg List.sum (List.map_congr_left fun k _ => DType.layout_length _ _ _)
  have hsum : ((derive rename vars).2.map Value.leafCount).sum = (derive rename vars).1.length := by
    rw [hderived, hlength, List.map_map, List.map_map]
    rfl
  constructor
  · intro h k hk
    have hput := h.captures k.planned (hplanned ▸ List.mem_map_of_mem hk)
    exact (capturesPut_iff (hbounds k hk).2 (hbounds k hk).1).mp hput
  · intro hplaced
    refine ⟨by rw [hplanned, hderived], hsum, Uprobe.derive_length hregular, ?_, ?_⟩
    · intro recipes data hdata
      rw [hplanned, hargs, unmarked_markIfaceSlots, unmarked_fetchArg, hlayout, hderived]
      refine takenLeaves_slices recipes data (k := .start _) ?_ ?_
      · intro p hp
        obtain ⟨k, hk, rfl⟩ := List.mem_map.mp hp
        refine ⟨?_, DType.layout_length _ _ _⟩
        have hpos := (hbounds k hk).2
        change k.type.leafWords + k.type.captureCount ≠ 0
        omega
      · rw [List.map_map, List.map_map]
        change 0 + ((keep rename vars 0 0).reduceOption.map fun k => k.type.leafNeed).sum ≤ _
        rwa [Nat.zero_add, ← hlength]
    · rw [hplanned]
      intro p hp
      obtain ⟨k, hk, rfl⟩ := List.mem_map.mp hp
      exact (capturesPut_iff (hbounds k hk).2 (hbounds k hk).1).mpr (hplaced k hk)

/-- `struct { name string; n int }`. -/
def pairType : DType :=
  .struct "main.T" "main.T" 24
    (.cons "name" 0 (.struct "string" "string" 16 .nil) (.cons "n" 16 (.basic .int "int" 8) .nil))

/-- `func f(p *T, v T)`. -/
theorem derive_sameLeaves_pair :
    SameLeaves id [⟨"p", .ptr "*main.T" 8 pairType⟩, ⟨"v", pairType⟩] := by
  refine (derive_sameLeaves id _ ?_).mpr ?_
  · with_unfolding_all decide
  · with_unfolding_all decide

/-- `struct { x struct { tab, data uint32 }; a int }`. -/
def tabDataType : DType :=
  .struct "main.V" "main.V" 16
    (.cons "x" 0
      (.struct "main.X" "main.X" 8
        (.cons "tab" 0 (.basic .uint "uint32" 4) (.cons "data" 4 (.basic .uint "uint32" 4) .nil)))
      (.cons "a" 8 (.basic .int "int" 8) .nil))

/-- The words of a call with `x.data` in `bx` and `a` in `cx`. -/
def tabDataWords : List LeafData :=
  [{ data := List.replicate 8 0 }, { data := [0, 0x20, 0, 0, 0, 0, 0, 0] },
    { data := [0, 0x30, 0, 0, 0, 0, 0, 0] }]

def tabDataRegs : Uprobe.Reg → UInt64
  | .bx => 0x2000
  | .cx => 0x3000
  | _ => 0

/-- `func f(v V)`: `scatterWords` copies `a` over the second word of `x`, so that the bytes
at `bx` are put at `cx`. -/
theorem tabData_misplaced : ¬ SameLeaves id [⟨"v", tabDataType⟩] := by
  intro h
  have hplanned : (planEach id [⟨"v", tabDataType⟩] {}).reduceOption =
      [Kept.planned { name := "v", type := tabDataType, word := 0 }] := by
    with_unfolding_all rfl
  have hput := h.captures _ (hplanned ▸ List.mem_singleton_self _)
  have hheld : Holds tabDataRegs (fun _ => 0)
      (Kept.planned { name := "v", type := tabDataType, word := 0 }) tabDataWords
      [{ data := [1] }] := by
    refine holds_planned.mpr ⟨?_, by with_unfolding_all rfl, nofun⟩
    refine .cons ⟨by decide, ?_⟩ (.cons ⟨by decide, ?_⟩ (.cons ⟨by decide, ?_⟩ .nil))
    · with_unfolding_all exact nofun
    · with_unfolding_all exact fun r hr => by cases hr; decide
    · with_unfolding_all exact fun r hr => by cases hr; decide
  have hprep : Uprobe.prepareLeaves noRecipes (tabDataType.value "v") tabDataWords
      [{ data := [1] }] [] { extraCur := 0 } = (.dynamic "" tabDataType
        (List.replicate 8 0 ++ [0, 0x30, 0, 0, 0, 0, 0, 0]) 0
        { chunks := [{ addr := 0x3000, data := [1] }] }, { extraCur := 0 }) := by
    with_unfolding_all rfl
  obtain ⟨snap, k, hplain, -, hputs⟩ := hput _ _ _ _ hheld _ _ _ _ _ _ _ _ _ hprep
  obtain ⟨heq, -⟩ := Prod.mk.inj (hplain.symm.trans hprep)
  obtain rfl := (Prepared.dynamic.inj heq).2.2.2.2
  rcases puts_chunks hputs _ (List.mem_singleton_self _) with hnone | ⟨q, hq, -, -, hchunk⟩
  · cases hnone
  · rw [captureSpecs_planned] at hq
    have haddr : (0x3000 : UInt64) = leafAddr tabDataRegs (fun _ => 0) q.1 :=
      congrArg Uprobe.SnapChunk.addr hchunk
    obtain rfl : q = (Uprobe.blobAt "v.x.value" { reg := some .bx, nilCheck := true },
        { data := [1] }) := by
      with_unfolding_all exact List.mem_singleton.mp hq
    rw [leafAddr_blobAt_reg] at haddr
    cases haddr

end GoFtrace.Tracing
