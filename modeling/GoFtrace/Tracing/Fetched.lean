import GoFtrace.Tracing.Leaves

/-!
# Fetched leaves

The leaves of an event, from the programs to the renderer: `fetch_args` fills one slot for
each fetch argument, and the renderer cuts the slots into the leaves of the values.

* `fetched_leaves`: each planned leaf is fetched by its own rule.
* `renderings_fetched`: each value is rendered from its own leaves.
* `Fetched.bytes`: what a leaf with memory steps holds.
-/

namespace GoFtrace.Tracing

open Lib (Memory word wordBytes)
open Bpf (PtRegs UserMemory ArgData ArgRule ArgRules encodeArg encodeArgs maxDataSize)
open Uprobe (DType ArgSpec FetchArg LeafData MemSnapshot Value Variable Planned Prepared Cursor
  Recipes Kept abiRegs keep planEach derive maxFetchArgs)

/-! ## Leaves -/

/-- A leaf as `renderEventArgsRecipes` takes it from the event. -/
def leafOf (d : ArgData) : LeafData :=
  { data := d.data, isNil := d.isNil, unavailable := d.readError }

/-- The leaves of an event of a probe with these rules. -/
def eventLeaves (recipes : UInt64 → Option Bpf.TypeRecipe) (regs : PtRegs) (u : UserMemory)
    (rules : ArgRules) : List LeafData :=
  (Bpf.fetchArgs recipes regs u rules).map leafOf

/-- No recipes are installed. -/
def noTypeRecipes : UInt64 → Option Bpf.TypeRecipe := fun _ => none

/-- The leaf is what the programs fetch for it. -/
def Fetched (regs : PtRegs) (u : UserMemory) (s : ArgSpec) (leaf : LeafData) : Prop :=
  ∃ i rule, encodeArg s.fetchArg = .ok rule ∧ leaf = leafOf (Bpf.fetchArg regs u i rule)

/-- The marks of interface slots do not matter to the fetch. -/
theorem encodeArg_unmarked {a : FetchArg} {rule : ArgRule} (h : encodeArg a = .ok rule) :
    ∃ rule', encodeArg (unmarked a) = .ok rule' ∧
      ∀ regs u i, Bpf.fetchArg regs u i rule' = Bpf.fetchArg regs u i rule := by
  have hsame : (unmarked a).rules = a.rules := rfl
  unfold encodeArg at h
  split at h
  · cases h
  · rename_i hlen
    rw [encodeArg, hsame, if_neg hlen]
    split at h
    · cases h
      exact ⟨_, rfl, fun regs u i => rfl⟩
    · cases h

section
variable {regs : PtRegs} {u : UserMemory}

theorem fetched_of_encoded {args : List FetchArg} {rules : ArgRules} {specs : List ArgSpec}
    (hrules : List.Forall₂ (fun a rule => encodeArg a = .ok rule) args rules)
    (hspecs : args.map unmarked = specs.map ArgSpec.fetchArg) (n : Nat) :
    List.Forall₂ (Fetched regs u) specs
      ((rules.zipIdx n).map fun q => leafOf (Bpf.fetchArg regs u q.2 q.1)) := by
  induction hrules generalizing specs n with
  | nil =>
    obtain rfl := List.map_eq_nil_iff.mp hspecs.symm
    exact .nil
  | cons hrule _ ih =>
    obtain ⟨s, specs, rfl, hs, hspecs⟩ := List.map_eq_cons_iff.mp hspecs.symm
    obtain ⟨rule', hrule', hfetch⟩ := encodeArg_unmarked hrule
    refine .cons ⟨n, rule', ?_, ?_⟩ (ih hspecs.symm (n + 1))
    · rw [hs, hrule']
    · rw [hfetch]

theorem mapM_encodeArg {args : List FetchArg} {rules : ArgRules}
    (h : args.mapM encodeArg = .ok rules) :
    List.Forall₂ (fun a rule => encodeArg a = .ok rule) args rules := by
  induction args generalizing rules with
  | nil =>
    cases h
    exact .nil
  | cons a args ih =>
    rw [List.mapM_cons] at h
    cases ha : encodeArg a with
    | error e => rw [ha] at h; cases h
    | ok rule =>
      cases hrest : args.mapM encodeArg with
      | error e => rw [ha, hrest] at h; cases h
      | ok rest =>
        rw [ha, hrest] at h
        cases h
        exact .cons ha (ih hrest)

theorem encodeArgs_forall₂ {args : List FetchArg} {rules : ArgRules}
    (h : encodeArgs args = .ok rules) :
    List.Forall₂ (fun a rule => encodeArg a = .ok rule) args rules := by
  unfold encodeArgs at h
  split at h
  · cases h
  · exact mapM_encodeArg h

theorem applyTypeRecipes_none (rules : ArgRules) (leaves : List ArgData) :
    Bpf.applyTypeRecipes noTypeRecipes u rules leaves = leaves := by
  unfold Bpf.applyTypeRecipes
  generalize rules.zipIdx = slots
  induction slots with
  | nil => rfl
  | cons slot slots ih =>
    have hslot : Bpf.applySlot noTypeRecipes u leaves slot.2 slot.1 = leaves := by
      unfold Bpf.applySlot
      split
      · rfl
      · dsimp only
        split <;> rfl
    rw [List.foldl_cons]
    exact (congrArg (fun ls => slots.foldl _ ls) hslot).trans ih

theorem appendRecipe_extends (dataPtr : UInt64) (rec : Bpf.TypeRecipe) (leaves : List ArgData) :
    ∃ extra, Bpf.appendRecipe u dataPtr rec leaves = leaves ++ extra := by
  induction rec generalizing leaves with
  | nil => exact ⟨[], (List.append_nil _).symm⟩
  | cons r rules ih =>
    rw [Bpf.appendRecipe]
    split
    · exact ⟨[], (List.append_nil _).symm⟩
    · obtain ⟨extra, hextra⟩ := ih (leaves ++ [Bpf.fetchFromBase u leaves.length dataPtr r])
      exact ⟨_ :: extra, by rw [hextra, List.append_assoc]; rfl⟩

theorem applySlot_extends (recipes : UInt64 → Option Bpf.TypeRecipe) (leaves : List ArgData)
    (i : Nat) (rule : ArgRule) :
    ∃ extra, Bpf.applySlot recipes u leaves i rule = leaves ++ extra := by
  have hnone : ∃ extra, leaves = leaves ++ extra := ⟨[], (List.append_nil _).symm⟩
  unfold Bpf.applySlot
  split
  · exact hnone
  dsimp only
  split
  · exact hnone
  split
  · exact hnone
  · exact appendRecipe_extends _ _ leaves

/-- Recipe leaves follow the leaves of the rules. -/
theorem eventLeaves_extends (recipes : UInt64 → Option Bpf.TypeRecipe) (regs : PtRegs)
    (u : UserMemory) (rules : ArgRules) : ∃ extra,
    eventLeaves recipes regs u rules = eventLeaves noTypeRecipes regs u rules ++ extra := by
  have hfold : ∀ (slots : List (ArgRule × Nat)) (leaves : List ArgData), ∃ extra,
      slots.foldl (fun leaves slot => Bpf.applySlot recipes u leaves slot.2 slot.1) leaves =
        leaves ++ extra := by
    intro slots
    induction slots with
    | nil => exact fun leaves => ⟨[], (List.append_nil _).symm⟩
    | cons slot slots ih =>
      intro leaves
      obtain ⟨first, hfirst⟩ := applySlot_extends (u := u) recipes leaves slot.2 slot.1
      obtain ⟨rest, hrest⟩ := ih (Bpf.applySlot recipes u leaves slot.2 slot.1)
      rw [hfirst] at hrest
      exact ⟨first ++ rest, by rw [List.foldl_cons, hfirst, hrest, List.append_assoc]⟩
  obtain ⟨extra, hextra⟩ := hfold rules.zipIdx (Bpf.fetchLeaves regs u rules)
  refine ⟨extra.map leafOf, ?_⟩
  rw [eventLeaves, eventLeaves, Bpf.fetchArgs, Bpf.fetchArgs, applyTypeRecipes_none,
    ← List.map_append, ← hextra]
  rfl

/-- Each planned leaf is fetched by its own rule. -/
theorem fetched_leaves {args : List FetchArg} {rules : ArgRules} {specs : List ArgSpec}
    (hrules : encodeArgs args = .ok rules)
    (hspecs : args.map unmarked = specs.map ArgSpec.fetchArg) :
    List.Forall₂ (Fetched regs u) specs (eventLeaves noTypeRecipes regs u rules) := by
  rw [eventLeaves, Bpf.fetchArgs, applyTypeRecipes_none, Bpf.fetchLeaves, List.map_map]
  exact fetched_of_encoded (encodeArgs_forall₂ hrules) hspecs 0

/-! ## What a leaf holds -/

theorem leafOf_length (d : ArgData) : (leafOf d).data.length = maxDataSize := d.data_length

theorem Fetched.length {s : ArgSpec} {leaf : LeafData} (h : Fetched regs u s leaf) :
    leaf.data.length = maxDataSize := by
  obtain ⟨i, rule, -, rfl⟩ := h
  exact leafOf_length _

/-- A leaf of one register holds its word. -/
theorem Fetched.register {s : ArgSpec} {leaf : LeafData} {r : Uprobe.Reg}
    (h : Fetched regs u s leaf) (hrules : s.fetchArg.rules = [.register (some r)]) :
    leaf = leafOf (ArgData.ofBytes (wordBytes (regs.reg r))) := by
  obtain ⟨i, rule, hrule, rfl⟩ := h
  have hchain : encodeArg s.fetchArg =
      .ok (Bpf.Chain.encoded ⟨r, [], by decide, nofun⟩ s.fetchArg) := Bpf.encodeArg_chain hrules
  rw [hchain] at hrule
  cases hrule
  rw [Bpf.fetchArg_word rfl]

theorem word_leafOf (w : UInt64) : word (leafOf (ArgData.ofBytes (wordBytes w))).data = w := by
  change word (ArgData.ofBytes (wordBytes w)).data = w
  rw [ArgData.ofBytes_data (by rw [Lib.wordBytes_length]; decide), Lib.word_wordBytes_append]

theorem ruleSteps_stepRules (steps : List Bpf.Step) : ruleSteps (Bpf.stepRules steps) = steps := by
  rw [ruleSteps, Bpf.stepRules, List.map_map]
  exact List.map_id _

/-- A leaf with memory steps is copied from its address. -/
theorem Fetched.copied {s : ArgSpec} {leaf : LeafData} (h : Fetched regs u s leaf)
    (haddr : Addressed s) (hpos : 0 ≤ s.size) (hle : s.size ≤ maxDataSize) :
    ∃ d, leaf = leafOf d ∧ Bpf.Copied u.mem (leafAddr regs.reg u.mem s) s.size.toNat d := by
  obtain ⟨i, rule, hrule, rfl⟩ := h
  obtain ⟨r, steps, hrules, hne, hfits⟩ := haddr
  have hlen : steps.length < Uprobe.maxFetchArgRules := by
    unfold encodeArg at hrule
    split at hrule
    · cases hrule
    · rename_i hlen
      rw [hrules, List.length_cons, Bpf.stepRules, List.length_map] at hlen
      omega
  have hchain : encodeArg s.fetchArg = .ok (Bpf.Chain.encoded ⟨r, steps, hlen, hfits⟩ s.fetchArg) :=
    Bpf.encodeArg_chain hrules
  rw [hchain] at hrule
  cases hrule
  have hleaf : leafAddr regs.reg u.mem s = Bpf.Chain.addr ⟨r, steps, hlen, hfits⟩ regs u.mem := by
    rw [leafAddr, hrules, Bpf.Chain.addr]
    dsimp only
    rw [ruleSteps_stepRules]
    rfl
  rw [hleaf]
  exact ⟨_, rfl, (Bpf.fetchArg_chain (a := s.fetchArg) ⟨r, steps, hlen, hfits⟩ hpos hle regs u
    i).2 hne⟩

/-- A leaf with memory steps that has been read holds the bytes at its address, and zeros up
to the end of its slot. -/
theorem Fetched.bytes {s : ArgSpec} {leaf : LeafData} (h : Fetched regs u s leaf)
    (haddr : Addressed s) (hpos : 0 ≤ s.size) (hle : s.size ≤ maxDataSize)
    (hnil : leaf.isNil = false) (havail : leaf.unavailable = false) :
    leaf.data = u.mem.slice (leafAddr regs.reg u.mem s) s.size.toNat ++
      List.replicate (maxDataSize - s.size.toNat) 0 := by
  obtain ⟨d, rfl, hcopied⟩ := h.copied haddr hpos hle
  cases hcopied with
  | nil => cases hnil
  | error => cases havail
  | bytes =>
    change (ArgData.ofBytes _).data = _
    rw [ArgData.ofBytes_data (by rw [Lib.Memory.slice_length]; omega), Lib.Memory.slice_length]

/-- One that has not been read holds zeros. -/
theorem Fetched.zeros {s : ArgSpec} {leaf : LeafData} (h : Fetched regs u s leaf)
    (haddr : Addressed s) (hpos : 0 ≤ s.size) (hle : s.size ≤ maxDataSize)
    (hno : leaf.isNil = true ∨ leaf.unavailable = true) :
    leaf.data = List.replicate maxDataSize 0 := by
  obtain ⟨d, rfl, hcopied⟩ := h.copied haddr hpos hle
  cases hcopied with
  | nil => rfl
  | error => rfl
  | bytes => rcases hno with hno | hno <;> cases hno

/-- A leaf of 64 bytes holds the bytes at its address. -/
theorem Fetched.blob {s : ArgSpec} {leaf : LeafData} (h : Fetched regs u s leaf)
    (haddr : Addressed s) (hblob : IsBlob s) (hnil : leaf.isNil = false)
    (havail : leaf.unavailable = false) :
    leaf.data = u.mem.slice (leafAddr regs.reg u.mem s) maxDataSize := by
  have hsize : s.size = (maxDataSize : Int) := hblob
  have hbytes := h.bytes haddr (by omega) (by omega) hnil havail
  rwa [hsize, Int.toNat_natCast, Nat.sub_self, List.replicate_zero, List.append_nil] at hbytes

/-! ## Values -/

theorem holdsWords_of_fetched {specs : List ArgSpec} {leaves : List LeafData}
    (hregs : ∀ s ∈ specs, s.fetchArg.baseReg.isSome = true)
    (h : List.Forall₂ (Fetched regs u) specs leaves) : HoldsWords regs.reg specs leaves := by
  induction h with
  | nil => exact .nil
  | @cons s leaf specs leaves hleaf _ ih =>
    obtain ⟨hs, hspecs⟩ := List.forall_mem_cons.mp hregs
    refine .cons ⟨by rw [hleaf.length]; decide, fun r hr => ?_⟩ (ih hspecs)
    have hbase : s.fetchArg.baseReg = r := by rw [FetchArg.baseReg, hr]; rfl
    rw [hbase] at hs
    obtain ⟨reg, rfl⟩ := Option.isSome_iff_exists.mp hs
    rw [hleaf.register hr, word_leafOf]
    rfl

theorem wordSpecs_isSome {name : String} {t : DType} {w : Nat}
    (hin : w + t.leafWords ≤ abiRegs.length) :
    ∀ s ∈ t.wordSpecs name w, s.fetchArg.baseReg.isSome = true := by
  intro s hs
  have hmem : s.fetchArg.baseReg ∈ (t.wordSpecs name w).map fun s => s.fetchArg.baseReg :=
    List.mem_map_of_mem hs
  rw [t.wordSpecs_baseReg, Uprobe.regsFrom_eq hin] at hmem
  obtain ⟨r, -, hr⟩ := List.mem_map.mp hmem
  rw [← hr]
  rfl

/-- The leaves that are fetched for a value hold what its captures depend on. -/
theorem captured_of_fetched {k : Kept} {words captures : List LeafData}
    (hin : k.word + k.type.leafWords ≤ abiRegs.length)
    (hlen : words.length = k.type.leafWords)
    (h : List.Forall₂ (Fetched regs u) k.layout (words ++ captures)) :
    Captured regs.reg u.mem k.name k.type k.word words captures := by
  have hwords := List.forall₂_take_append _ _ _ h
  have hcaptures := List.forall₂_drop_append _ _ _ h
  rw [hlen, Kept.layout, DType.layout] at hwords hcaptures
  rw [List.take_left' (DType.wordSpecs_length _ _ _)] at hwords
  rw [List.drop_left' (DType.wordSpecs_length _ _ _)] at hcaptures
  refine ⟨holdsWords_of_fetched (wordSpecs_isSome hin) hwords, ?_, ?_⟩
  · rw [← hcaptures.length_eq, DType.captureSpecs_length]
  · rintro hsome obj rest rfl hnil havail
    obtain ⟨elem, hobj⟩ := Option.isSome_iff_exists.mp hsome
    have hone : k.type.leafWords = 1 := by
      rw [← DType.underlying_leafWords]
      cases hu : k.type.underlying with
      | ptr n b e => rfl
      | _ => rw [hu] at hobj; cases hobj
    rw [DType.captureSpecs, hobj] at hcaptures
    obtain ⟨hleaf, -⟩ := List.forall₂_cons.mp hcaptures
    have hloc : Located { reg := abiRegs[k.word]?, nilCheck := true } :=
      located_reg (by omega) true
    rw [hleaf.blob (hloc.addressed _ _ _) rfl hnil havail, leafAddr_blobAt_reg]

end

/-! ## Events -/

/-- A value of an event: its leaves and what is rendered from them. -/
structure Rendering where
  planned : Planned
  words : List LeafData
  captures : List LeafData
  prepared : Prepared

/-- The values of an event as `RenderValuesOpts` takes them. -/
def renderings (recipes : Recipes) (data : List LeafData) : List Planned → Cursor → List Rendering
  | [], _ => []
  | p :: ps, k =>
    { planned := p
      words := (takeLeaves p.value data k.cur).1
      captures := (takeLeaves p.value data k.cur).2
      prepared := (Uprobe.prepare recipes p.value data k).1 } ::
      renderings recipes data ps (Uprobe.prepare recipes p.value data k).2

theorem renderValues_renderings (env : Uprobe.RenderEnv) (recipes : Recipes)
    (data : List LeafData) (ps : List Planned) (k : Cursor) :
    (Uprobe.renderValues env recipes data (ps.map Planned.value) k).1 =
      (renderings recipes data ps k).map fun x =>
        x.planned.value.name ++ "=" ++ x.prepared.render env := by
  induction ps generalizing k with
  | nil => rfl
  | cons p ps ih =>
    rw [renderings, List.map_cons, List.map_cons, ← ih]
    rfl

/-- Each value is rendered from its own leaves. -/
theorem renderings_fetched {regs : PtRegs} {u : UserMemory} (recipes : Recipes)
    {ps : List Planned}
    (hps : ∀ p ∈ ps, p.value.leafCount ≠ 0 ∧ p.emitted.length = p.value.leafCount)
    {data fetched extra : List LeafData} {k : Cursor}
    (hfetched : List.Forall₂ (Fetched regs u) (ps.flatMap Planned.emitted) fetched)
    (hdata : data.drop k.cur = fetched ++ extra) :
    ∀ x ∈ renderings recipes data ps k, x.planned ∈ ps ∧
      x.words.length = x.planned.value.wordCount ∧
      List.Forall₂ (Fetched regs u) x.planned.emitted (x.words ++ x.captures) ∧
      ∃ k k', Uprobe.prepareLeaves recipes x.planned.value x.words x.captures data k =
        (x.prepared, k') := by
  induction ps generalizing k fetched with
  | nil => exact nofun
  | cons p ps ih =>
    obtain ⟨⟨hpos, hemitted⟩, hrest⟩ := List.forall_mem_cons.mp hps
    rw [List.flatMap_cons] at hfetched
    obtain ⟨own, others, rfl, hown, hothers⟩ := forall₂_append_left hfetched
    have hownLen := hown.length_eq
    have hfit : k.cur + p.value.leafCount ≤ data.length := by
      have hlen := congrArg List.length hdata
      rw [List.length_drop, List.length_append, List.length_append] at hlen
      omega
    obtain ⟨hprep, hcur⟩ := prepare_cur recipes data hpos hfit
    obtain ⟨hwords, hcaptures, htake⟩ := takeLeaves_append data p.value hfit
    rw [htake, List.append_assoc own] at hdata
    have hcount : p.value.leafCount = p.value.wordCount + p.value.captures := rfl
    obtain ⟨hslice, hafter⟩ := List.append_inj hdata (by rw [List.length_append]; omega)
    rw [← hcur] at hafter
    intro x hx
    rcases List.mem_cons.mp hx with rfl | hx
    · refine ⟨List.mem_cons_self, hwords, ?_, { k with cur := k.cur + p.value.leafCount },
        (Uprobe.prepare recipes p.value data k).2, hprep.symm⟩
      dsimp only
      rwa [hslice]
    · obtain ⟨hmem, hx⟩ := ih hrest hothers hafter x hx
      exact ⟨List.mem_cons_of_mem _ hmem, hx⟩

end GoFtrace.Tracing
