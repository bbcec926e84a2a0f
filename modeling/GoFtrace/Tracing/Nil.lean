import GoFtrace.Tracing.Sound
import GoFtrace.Uprobe.Home

/-!
# Nil pointers and interfaces

What the renderer prints as nil, against the registers and the memory of the probe.

* `nils_real`: when every printed nil was nil.
-/

namespace GoFtrace.Tracing

open Lib (Memory word)
open Bpf (PtRegs UserMemory ArgRules encodeArg encodeArgs)
open Uprobe (DType Fields structKind ArgSpec LeafData MemSnapshot Value Variable Recipes Kept
  Prepared abiRegs derive maxDynamicDepth RenderEnv Call Home Spot Matches FieldsMatch TypesRead
  FieldTypesRead InWords exactRead)

/-! ## Leaves -/

section
variable {regs : PtRegs} {u : UserMemory}

theorem fetchFrom_isNil {leaf : Nat} {nilCheck : Bool} {length : UInt8} {steps : Bpf.Steps}
    {size : UInt8} {base : UInt64}
    (h : (Bpf.fetchFrom u leaf nilCheck length steps size base).isNil = true) : base = 0 := by
  unfold Bpf.fetchFrom Bpf.copyLeaf at h
  split at h
  · rename_i hnil
    rw [Bool.and_eq_true, beq_iff_eq] at hnil
    exact hnil.2
  split at h
  · cases h
  · dsimp only at h
    split at h
    · cases h
    · split at h <;> cases h

/-- A leaf is nil only when the register that it starts from is zero. -/
theorem Fetched.nil_base {s : ArgSpec} {leaf : LeafData} (h : Fetched regs u s leaf)
    (hnil : leaf.isNil = true) : regValue regs.reg s.fetchArg.baseReg = 0 := by
  obtain ⟨i, rule, hrule, rfl⟩ := h
  cases hbase : s.fetchArg.baseReg with
  | none => rfl
  | some r =>
    have hreg : rule.reg = Bpf.registerConstants (some r) := by
      unfold Uprobe.FetchArg.baseReg at hbase
      split at hbase
      · rename_i r' hhead
        unfold encodeArg at hrule
        split at hrule
        · cases hrule
        rw [hhead, hbase] at hrule
        split at hrule
        · rename_i first last hfirst hlast
          cases hfirst
          cases hrule
          rfl
        · cases hrule
      · cases hbase
    change (Bpf.fetchArg regs u i rule).isNil = true at hnil
    unfold Bpf.fetchArg at hnil
    cases htype : rule.type with
    | reg =>
      rw [htype] at hnil
      cases hnil
    | memory =>
      rw [htype] at hnil
      have hzero := fetchFrom_isNil hnil
      rwa [hreg, Bpf.readReg_registerConstants] at hzero

end

/-! ## Words -/

/-- The registers of a value. -/
def Rendering.trueWords (regs : Uprobe.Reg → UInt64) (x : Rendering) : List UInt64 :=
  (x.planned.emitted.take x.planned.value.wordCount).map fun s =>
    regValue regs s.fetchArg.baseReg

section
variable (regs : Uprobe.Reg → UInt64) (env : RenderEnv)

mutual

/-- The bytes of the word leaves stand for the registers. -/
theorem matches_words (name : String) : ∀ (t : DType) (fuel w : Nat) (words : List LeafData)
    (tail : List UInt8) (more : List UInt64), HoldsWords regs (t.wordSpecs name w) words →
    TypesRead env t fuel
      ((t.wordSpecs name w).map (fun s => regValue regs s.fetchArg.baseReg) ++ more)
      (Uprobe.concatLeaves words ++ tail) →
    Matches env t fuel
      ((t.wordSpecs name w).map (fun s => regValue regs s.fetchArg.baseReg) ++ more)
      (Uprobe.concatLeaves words ++ tail)
  | .typedef _ t, fuel, w, words, tail, more, h, hread =>
    matches_words name t fuel w words tail more h hread
  | .qual _ t, fuel, w, words, tail, more, h, hread =>
    matches_words name t fuel w words tail more h hread
  | .struct _ s _ fs, fuel, w, words, tail, more, h, hread => by
    rw [DType.wordSpecs] at h hread ⊢
    cases fuel with
    | zero => trivial
    | succ fuel =>
      cases hkind : structKind s fs with
      | plain =>
        simp only [hkind] at h
        simp only [TypesRead, hkind] at hread
        simp only [Matches, hkind]
        exact matches_fields name fs fuel w words tail more h hread
      | iface nonEmpty =>
        simp only [hkind] at h
        simp only [TypesRead, hkind] at hread
        simp only [Matches, hkind]
        obtain ⟨type, _, htype, hmore, rfl⟩ := List.forall₂_cons_left_iff.mp h
        obtain ⟨data, rest, hdata, -, rfl⟩ := List.forall₂_cons_left_iff.mp hmore
        obtain ⟨-, -, hsecond⟩ := word_concatLeaves rest tail htype.1 hdata.1
        refine ⟨hread, ?_⟩
        rw [hsecond, hdata.scalar]
        rfl
      | string =>
        simp only [Matches, hkind]
      | slice =>
        simp only [Matches, hkind]
  | .ptr _ _ _, _, w, words, tail, more, h, _ => by
    obtain ⟨leaf, _, hleaf, -, rfl⟩ := List.forall₂_cons_left_iff.mp h
    have hlen : (leaf.data.take 8).length = 8 := by
      have hdata := hleaf.1
      rw [List.length_take]
      omega
    rw [Matches, Uprobe.concatLeaves, List.flatMap_cons, List.append_assoc,
      ← Lib.word_take (Nat.le_refl 8), List.take_left' hlen, Lib.word_take (Nat.le_refl 8),
      hleaf.scalar]
    rfl
  | .basic _ _ _, _, _, _, _, _, _, _ => trivial
  | .func _ _ _, _, _, _, _, _, _, _ => trivial
  | .other _ _ _, _, _, _, _, _, _, _ => trivial

theorem matches_fields (name : String) : ∀ (fs : Fields) (fuel w : Nat) (words : List LeafData)
    (tail : List UInt8) (more : List UInt64), HoldsWords regs (fs.wordSpecs name w) words →
    FieldTypesRead env fs fuel
      ((fs.wordSpecs name w).map (fun s => regValue regs s.fetchArg.baseReg) ++ more)
      (Uprobe.concatLeaves words ++ tail) →
    FieldsMatch env fs fuel
      ((fs.wordSpecs name w).map (fun s => regValue regs s.fetchArg.baseReg) ++ more)
      (Uprobe.concatLeaves words ++ tail)
  | .nil, _, _, _, _, _, _, _ => trivial
  | .cons n _ t rest, fuel, w, words, tail, more, h, hread => by
    rw [Fields.wordSpecs] at h hread ⊢
    obtain ⟨ws, ws', rfl, hws, hws'⟩ := forall₂_append_left h
    have hconcat : Uprobe.concatLeaves (ws ++ ws') ++ tail =
        Uprobe.concatLeaves ws ++ (Uprobe.concatLeaves ws' ++ tail) := by
      simp [Uprobe.concatLeaves]
    have hlen : (Uprobe.concatLeaves ws).length = 8 * t.leafWords := by
      rw [concatLeaves_length hws, DType.wordSpecs_length]
    have hcount : ((t.wordSpecs (name ++ "." ++ n) w).map
        fun s => regValue regs s.fetchArg.baseReg).length = t.leafWords := by
      rw [List.length_map, DType.wordSpecs_length]
    rw [FieldTypesRead, hconcat, List.map_append, List.append_assoc, List.drop_left' hlen,
      List.drop_left' hcount] at hread
    rw [FieldsMatch, hconcat, List.map_append, List.append_assoc, List.drop_left' hlen,
      List.drop_left' hcount]
    exact ⟨fun hprints => matches_words (name ++ "." ++ n) t fuel w ws _ _ hws
        (hread.1 hprints),
      matches_fields name rest fuel (w + t.leafWords) ws' tail more hws' hread.2⟩

end

end

/-! ## Guards -/

section
variable {recipes : Recipes} {v : Value} {words captures all : List LeafData}
  {k k' : Uprobe.Cursor}

theorem text_ne_nil {s : String} (hs : s ≠ "nil") :
    (Prepared.text s, k) ≠ (.text "nil", k') :=
  fun h => hs (Prepared.text.inj (Prod.mk.inj h).1)

theorem unavailable_ne_nil : "<unavailable>" ≠ "nil" := by with_unfolding_all decide

theorem preparePointer_nil {t elem : DType} {header : List UInt8}
    (h : Uprobe.preparePointer recipes t elem header captures all k = (.text "nil", k')) :
    word header = 0 := by
  unfold Uprobe.preparePointer at h
  dsimp only at h
  split at h
  · assumption
  · split at h
    · split at h
      · exact absurd h (text_ne_nil (Uprobe.append_ne_nil (by decide)))
      · split at h
        · exact absurd h (text_ne_nil (Uprobe.append_ne_nil (by decide)))
        · cases h
    · exact absurd h (text_ne_nil (Uprobe.append_ne_nil_left '0' (by decide) rfl))

theorem prepareStruct_ne_nil {orig : DType} {st : Uprobe.StructKind} {header : List UInt8} :
    Uprobe.prepareStruct recipes orig st header captures all k ≠ (.text "nil", k') := by
  intro h
  unfold Uprobe.prepareStruct at h
  cases st <;> cases h

/-- `renderAuto` answers `nil` for one of three reasons. -/
theorem prepareLeaves_nil
    (h : Uprobe.prepareLeaves recipes v words captures all k = (.text "nil", k')) :
    (v.type.underlying.isInterfaceType = true ∧
        ∃ leaf rest, words = leaf :: rest ∧ (leaf.isNil = true ∨ word leaf.data = 0)) ∨
      (v.type.underlying.isPtr = true ∧
        ((∃ obj rest, captures = obj :: rest ∧ obj.isNil = true) ∨
          word (Uprobe.concatLeaves words) = 0)) := by
  unfold Uprobe.prepareLeaves at h
  extract_lets t ifaceNil objNil header at h
  split at h
  · rename_i hnil
    rw [Bool.and_eq_true] at hnil
    refine .inl ⟨hnil.1, ?_⟩
    cases words with
    | nil => cases hnil.2
    | cons leaf rest =>
      have hleaf := hnil.2
      simp only [Bool.or_eq_true, beq_iff_eq] at hleaf
      exact ⟨leaf, rest, rfl, hleaf⟩
  split at h
  · exact absurd h (text_ne_nil unavailable_ne_nil)
  split at h
  · rename_i hnil
    rw [Bool.and_eq_true] at hnil
    refine .inr ⟨hnil.1, .inl ?_⟩
    cases captures with
    | nil => cases hnil.2
    | cons obj rest => exact ⟨obj, rest, rfl, hnil.2⟩
  split at h
  · exact absurd h (text_ne_nil unavailable_ne_nil)
  cases ht : t with
  | ptr n b elem =>
    simp only [ht] at h
    have hptr : v.type.underlying.isPtr = true := by
      change t.isPtr = true
      rw [ht]
      rfl
    exact .inr ⟨hptr, .inr (preparePointer_nil h)⟩
  | struct n s b fs =>
    simp only [ht] at h
    exact absurd h prepareStruct_ne_nil
  | _ =>
    simp only [ht] at h
    cases h

theorem prepareLeaves_zero {leaf : LeafData} (hiface : v.type.underlying.isInterfaceType = true)
    (hzero : word leaf.data = 0) :
    Uprobe.prepareLeaves recipes v (leaf :: words) captures all k = (.text "nil", k) := by
  unfold Uprobe.prepareLeaves
  dsimp only
  rw [hiface, hzero]
  simp

/-- A value of words is rendered only when all of them could be read. -/
theorem prepareLeaves_available {lead : String} {ty : DType} {data : List UInt8} {addr : UInt64}
    {snap : MemSnapshot} (h : Uprobe.prepareLeaves recipes v words captures all k =
      (.dynamic lead ty data addr snap, k')) : ∀ leaf ∈ words, leaf.unavailable = false := by
  unfold Uprobe.prepareLeaves at h
  extract_lets t ifaceNil objNil header at h
  split at h
  · cases h
  split at h
  · cases h
  · rename_i hany
    intro leaf hleaf
    exact Bool.eq_false_iff.mpr fun hyes => hany (List.any_eq_true.mpr ⟨leaf, hleaf, hyes⟩)

end

/-! ## Renderings -/

/-- The home of what is rendered: the object of a pointer, or the words of a value. -/
def Rendering.home (regs : Uprobe.Reg → UInt64) (x : Rendering) : Home :=
  if x.planned.value.type.underlying.isPtr then .memory ((x.trueWords regs).getD 0 0)
  else .words (x.trueWords regs)

/-- A property of every value that is reached while a value is rendered. -/
def Rendering.Reaches (regs : Uprobe.Reg → UInt64) (m : Memory) (env : RenderEnv) (x : Rendering)
    (P : Uprobe.MemoryReader → Spot → Prop) : Prop :=
  ∀ lead ty data addr snap, x.prepared = .dynamic lead ty data addr snap →
    ∀ s ∈ Spot.visited env snap.read m maxDynamicDepth ⟨⟨ty, data, addr⟩, x.home regs⟩,
      P snap.read s

/-- Every pointer and every interface that is printed as nil was nil. -/
structure NilsReal (regs : Uprobe.Reg → UInt64) (m : Memory) (env : RenderEnv) (x : Rendering) :
    Prop where
  text : x.prepared = .text "nil" → (x.trueWords regs).getD 0 0 = 0
  reached : x.Reaches regs m env fun read s => s.NilReal env read m

/-- No interface that is printed from the registers of the value had its type word read as zero
without being nil; a struct with a word that could not be read is not rendered. -/
def TypeWords (regs : Uprobe.Reg → UInt64) (env : RenderEnv) (x : Rendering) : Prop :=
  (x.planned.value.type.isPlain = true → ∀ leaf ∈ x.words, leaf.unavailable = false) →
    TypesRead env x.planned.value.type maxDynamicDepth (x.trueWords regs)
      (Uprobe.concatLeaves x.words)

/-- A struct in registers is laid out by the compiler; on the walk over memory, the snapshot
gives the parts with pointers and interfaces the bytes that memory has, and they are usual. -/
structure Undisturbed (regs : Uprobe.Reg → UInt64) (m : Memory) (env : RenderEnv) (x : Rendering)
    (c : Call) (snap : MemSnapshot) : Prop where
  laidOut : x.planned.value.type.isPlain = true → Uprobe.laidOut x.planned.value.type = true
  parts : ∀ s ∈ Spot.nilVisited env (exactRead m snap.read) m maxDynamicDepth ⟨c, x.home regs⟩,
    s.nilParts env snap.read m = s.nilParts env (exactRead m snap.read) m
  usual : ∀ s ∈ Spot.nilVisited env (exactRead m snap.read) m maxDynamicDepth ⟨c, x.home regs⟩,
    s.Usual env (exactRead m snap.read) m

/-- A value with pointers or interfaces is rendered from its own bytes. -/
def Rendering.Undisturbed (regs : Uprobe.Reg → UInt64) (m : Memory) (env : RenderEnv)
    (x : Rendering) : Prop :=
  ∀ lead ty data addr snap, x.prepared = .dynamic lead ty data addr snap →
    ty.hasNil env = true → Tracing.Undisturbed regs m env x ⟨ty, data, addr⟩ snap

section
variable {recipes : Recipes} {regs : PtRegs} {u : UserMemory} {data : List LeafData}
  {env : RenderEnv} {x : Rendering} {k : Kept}

theorem RenderedKept.trueWords (h : RenderedKept recipes regs u data x k) :
    x.trueWords regs.reg = (k.type.wordSpecs k.name k.word).map fun s =>
      regValue regs.reg s.fetchArg.baseReg := by
  have htake : k.layout.take k.type.leafWords = k.type.wordSpecs k.name k.word :=
    List.take_left' (DType.wordSpecs_length _ _ _)
  rw [Rendering.trueWords, h.planned]
  exact congrArg (List.map _) htake

theorem RenderedKept.fetched_words (h : RenderedKept recipes regs u data x k) :
    List.Forall₂ (Fetched regs u) (k.type.wordSpecs k.name k.word) x.words := by
  have hwords := List.forall₂_take_append _ _ _ h.fetched
  rwa [h.length, Kept.layout, DType.layout,
    List.take_left' (DType.wordSpecs_length _ _ _)] at hwords

/-- What passes for an interface is one. -/
theorem isIface_of_regular {t : DType} (hregular : t.regular = true)
    (h : t.underlying.isInterfaceType = true) : t.isIface = true := by
  rw [← t.underlying_regular] at hregular
  unfold DType.isIface
  cases hu : t.underlying with
  | struct n s b fs =>
    rw [hu] at h hregular
    change Uprobe.isInterface s fs = true at h
    rw [DType.regular, h] at hregular
    have hkind : structKind s fs = .iface (Uprobe.interfaceIsNonEmpty s fs) := by
      simpa using (Bool.and_eq_true_iff.mp hregular).1
    dsimp only
    rw [hkind]
  | _ => rw [hu] at h; cases h

theorem not_isPlain_of_isIface {t : DType} (h : t.isIface = true) : ¬ t.isPlain = true := by
  obtain ⟨n, s, b, fs, nonEmpty, hu, hkind⟩ := Uprobe.isIface_iff.mp h
  rw [DType.isPlain, hu]
  dsimp only
  rw [hkind]
  exact Bool.false_ne_true

/-- The type word of an interface in registers. -/
theorem typeWords_iface (h : x.planned.value.type.isIface = true) :
    TypeWords regs.reg env x ↔
      (word (Uprobe.concatLeaves x.words) = 0 → (x.trueWords regs.reg).getD 0 0 = 0) := by
  obtain ⟨n, s, b, fs, nonEmpty, hu, hkind⟩ := Uprobe.isIface_iff.mp h
  have hplain : ¬ x.planned.value.type.isPlain = true := not_isPlain_of_isIface h
  rw [TypeWords, ← Uprobe.typesRead_underlying, hu]
  simp only [hplain, TypesRead, maxDynamicDepth, hkind, Bool.false_eq_true, false_implies,
    true_implies]

/-- The words of a value start with those of its first leaf. -/
theorem RenderedKept.word_head (h : RenderedKept recipes regs u data x k) {leaf : LeafData}
    {rest : List LeafData} (hwords : x.words = leaf :: rest) :
    word (Uprobe.concatLeaves x.words) = word leaf.data := by
  have hholds := h.captured.holds
  rw [hwords] at hholds ⊢
  obtain ⟨s, specs, hleaf, -, -⟩ := List.forall₂_cons_right_iff.mp hholds
  have hlen : (leaf.data.take 8).length = 8 := by
    rw [List.length_take]
    exact Nat.min_eq_left hleaf.1
  rw [Uprobe.concatLeaves, List.flatMap_cons, ← Lib.word_take (Nat.le_refl 8),
    List.take_left' hlen, Lib.word_take (Nat.le_refl 8)]

/-- A value that is rendered as `nil` is nil in its register. -/
theorem RenderedKept.text_nil (h : RenderedKept recipes regs u data x k)
    (htypes : TypeWords regs.reg env x) (htext : x.prepared = .text "nil") :
    (x.trueWords regs.reg).getD 0 0 = 0 := by
  obtain ⟨cur, cur', hprep⟩ := h.prepared
  rw [htext] at hprep
  rcases prepareLeaves_nil hprep with ⟨hiface, leaf, rest, hwords, hnil⟩ | ⟨hptr, hnil⟩
  · rcases hnil with hnil | hzero
    · have hfetched := h.fetched_words
      rw [hwords] at hfetched
      obtain ⟨s, specs, hleaf, -, hspecs⟩ := List.forall₂_cons_right_iff.mp hfetched
      rw [h.trueWords, hspecs]
      exact hleaf.nil_base hnil
    · have hface : x.planned.value.type.isIface = true := by
        rw [h.planned]
        exact isIface_of_regular h.regular hiface
      exact (typeWords_iface hface).mp htypes ((h.word_head hwords).trans hzero)
  · obtain ⟨n, b, elem, hu⟩ : ∃ n b elem, k.type.underlying = .ptr n b elem := by
      change k.type.underlying.isPtr = true at hptr
      cases hu : k.type.underlying with
      | ptr n b elem => exact ⟨n, b, elem, rfl⟩
      | _ => rw [hu] at hptr; cases hptr
    rw [h.trueWords, ← DType.underlying_wordSpecs, hu]
    change regValue regs.reg abiRegs[k.word]? = 0
    rcases hnil with ⟨obj, rest, hcaptures, hnil⟩ | hzero
    · have hfetched := h.fetched_captures
      rw [hcaptures, DType.captureSpecs] at hfetched
      cases hobj : k.type.underlying.objectPointee with
      | some elem =>
        rw [hobj] at hfetched
        exact (List.forall₂_cons.mp hfetched).1.nil_base hnil
      | none =>
        rw [hobj, ← DType.underlying_regJobs, hu] at hfetched
        cases hfetched
    · rwa [h.captured.pointer_word hu] at hzero

/-- A struct in registers is rendered from an image that shows its words. -/
theorem RenderedKept.inWords (h : RenderedKept recipes regs u data x k)
    (hlaid : Uprobe.laidOut k.type = true) (ws : List UInt64) :
    InWords ⟨⟨k.type, Uprobe.scatterWords k.type (Uprobe.concatLeaves x.words), 0⟩, .words ws⟩ ws
      (Uprobe.concatLeaves x.words) := by
  have hpos := Uprobe.laidOut_size_pos k.type hlaid
  have hlen : (Uprobe.concatLeaves x.words).length = 8 * k.type.leafWords := by
    rw [concatLeaves_length h.captured.holds, DType.wordSpecs_length]
  have hscatter := Uprobe.scatter_scattered (Uprobe.concatLeaves x.words) k.type h.regular hlaid 0
    { img := List.replicate k.type.size.toNat 0 } (by dsimp only; omega) (by simp)
  have himage : Uprobe.scatterWords k.type (Uprobe.concatLeaves x.words) =
      (k.type.scatter (Uprobe.concatLeaves x.words) (0 : Nat)
        { img := List.replicate k.type.size.toNat 0 }).img := by
    rw [Uprobe.scatterWords, if_neg (by omega)]
    rfl
  refine ⟨rfl, ?_, hlaid, ?_⟩
  · have hshows := hscatter.shows
    rw [List.drop_zero, List.drop_zero] at hshows
    rwa [himage]
  · have hout := hscatter.outside.length
    rw [List.length_replicate] at hout
    dsimp only
    rw [himage, hout]
    omega

/-- An object is rendered from the copy that was made of it. -/
theorem RenderedKept.faithful_pointer (h : RenderedKept recipes regs u data x k) {fuel : Nat}
    {n : String} {b : Int} {elem : DType} (hu : k.type.underlying = .ptr n b elem)
    (hnil : ∀ obj rest, x.captures = obj :: rest → obj.isNil = false) {cur cur' : Uprobe.Cursor}
    {lead : String} {ty : DType} {bytes : List UInt8} {addr : UInt64} {snap : MemSnapshot}
    (hprep : Uprobe.preparePointer recipes (.ptr n b elem) elem (Uprobe.concatLeaves x.words)
      x.captures data cur = (.dynamic lead ty bytes addr snap, cur')) :
    Uprobe.Faithful env fuel u.mem
      ⟨⟨ty, bytes, addr⟩, .memory ((x.trueWords regs.reg).getD 0 0)⟩ := by
  unfold Uprobe.preparePointer at hprep
  dsimp only at hprep
  split at hprep
  · cases hprep
  split at hprep
  · rename_i hsome
    cases hcaptures : x.captures with
    | nil => rw [hcaptures] at hprep; cases hprep
    | cons obj rest =>
      rw [hcaptures] at hprep
      dsimp only at hprep
      split at hprep
      · cases hprep
      rename_i hobj
      rcases happly : elem.applyNestedRecipes recipes data obj.data cur
        (elem.consumeMemCaptures obj.data rest
          (MemSnapshot.put {} (word (Uprobe.concatLeaves x.words)) obj)).2 with ⟨cur₁, snap₁⟩
      rw [happly] at hprep
      cases hprep
      have hdata := h.captured.object (by rw [hu]; exact hsome) obj rest hcaptures
        (hnil obj rest hcaptures) (Bool.eq_false_iff.mpr hobj)
      have hhome : (x.trueWords regs.reg).getD 0 0 = regValue regs.reg abiRegs[k.word]? := by
        rw [h.trueWords, ← DType.underlying_wordSpecs, hu]
        rfl
      rw [hhome, h.captured.pointer_word hu, hdata]
      exact fun _ => ⟨rfl, .slice _ _ _⟩
  · cases hprep

/-- A value in registers is rendered from its words, a struct from their image. -/
theorem RenderedKept.faithful_header (h : RenderedKept recipes regs u data x k)
    (hlaid : k.type.isPlain = true → Uprobe.laidOut k.type = true) {fuel : Nat} {ws : List UInt64}
    (hmatch : Matches env k.type fuel ws (Uprobe.concatLeaves x.words)) {n s : String} {b : Int}
    {fs : Fields} (hu : k.type.underlying = .struct n s b fs) {cur cur' : Uprobe.Cursor}
    {lead : String} {ty : DType} {bytes : List UInt8} {addr : UInt64} {snap : MemSnapshot}
    (hprep : Uprobe.prepareStruct recipes k.type (structKind s fs)
      (Uprobe.concatLeaves x.words) x.captures data cur =
        (.dynamic lead ty bytes addr snap, cur')) :
    Uprobe.Faithful env fuel u.mem ⟨⟨ty, bytes, addr⟩, .words ws⟩ := by
  have hplain : k.type.isPlain = (structKind s fs == .plain) := by rw [DType.isPlain, hu]
  cases hkind : structKind s fs with
  | plain =>
    rw [hkind] at hplain hprep
    cases hprep
    have hin := h.inWords (hlaid hplain) ws
    exact ⟨⟨_, hin.shows, hmatch⟩, fun _ => ⟨hin.laidOut, hin.whole⟩⟩
  | iface nonEmpty =>
    rw [hkind] at hplain hprep
    unfold Uprobe.prepareStruct at hprep
    dsimp only at hprep
    split at hprep <;> cases hprep <;> exact Uprobe.faithful_words hplain hmatch
  | string =>
    rw [hkind] at hplain hprep
    cases hprep
    exact Uprobe.faithful_words hplain hmatch
  | slice =>
    rw [hkind] at hplain hprep
    cases hprep
    exact Uprobe.faithful_words hplain hmatch

/-- What is rendered is given the bytes of the value. -/
theorem RenderedKept.faithful (h : RenderedKept recipes regs u data x k)
    (hlaid : k.type.isPlain = true → Uprobe.laidOut k.type = true)
    (htypes : TypeWords regs.reg env x) {lead : String} {ty : DType} {bytes : List UInt8}
    {addr : UInt64} {snap : MemSnapshot}
    (hdyn : x.prepared = .dynamic lead ty bytes addr snap) :
    Uprobe.Faithful env maxDynamicDepth u.mem ⟨⟨ty, bytes, addr⟩, x.home regs.reg⟩ := by
  obtain ⟨cur, cur', hprep⟩ := h.prepared
  rw [hdyn] at hprep
  rw [TypeWords, h.planned] at htypes
  have hread : TypesRead env k.type maxDynamicDepth (x.trueWords regs.reg)
      (Uprobe.concatLeaves x.words) := htypes fun _ => prepareLeaves_available hprep
  have hmatch := matches_words regs.reg env k.name k.type maxDynamicDepth k.word x.words [] []
    h.captured.holds
  simp only [List.append_nil, ← h.trueWords] at hmatch
  obtain ⟨hnil, hprep⟩ := prepareLeaves_dynamic hprep
  have hvtype : k.value.type = k.type := rfl
  rw [hvtype] at hnil hprep
  rw [Rendering.home, h.planned]
  change Uprobe.Faithful env maxDynamicDepth u.mem ⟨⟨ty, bytes, addr⟩,
    if k.type.underlying.isPtr = true then _ else _⟩
  cases hu : k.type.underlying with
  | ptr n b elem =>
    simp only [hu] at hprep
    exact h.faithful_pointer hu (hnil (by rw [hu]; rfl)) hprep
  | struct n s b fs =>
    simp only [hu] at hprep
    exact h.faithful_header hlaid (hmatch hread) hu hprep
  | typedef n t => exact absurd hu (k.type.underlying_ne_typedef n t)
  | qual q t => exact absurd hu (k.type.underlying_ne_qual q t)
  | _ =>
    simp only [hu] at hprep
    cases hprep
    exact Uprobe.faithful_words (by simp [DType.isPlain, hu]) (hmatch hread)

/-- An interface in registers whose first word was read as zero is printed as nil. -/
theorem RenderedKept.typeWords_iface_of_nil (h : RenderedKept recipes regs u data x k)
    (hiface : k.type.isIface = true)
    (hnil : x.prepared = .text "nil" → (x.trueWords regs.reg).getD 0 0 = 0) :
    TypeWords regs.reg env x := by
  rw [typeWords_iface (by rw [h.planned]; exact hiface)]
  intro hzero
  obtain ⟨n, s, b, fs, nonEmpty, hu, hkind⟩ := Uprobe.isIface_iff.mp hiface
  obtain ⟨leaf, rest, hwords⟩ : ∃ leaf rest, x.words = leaf :: rest := by
    have hlen := h.length
    rw [← DType.underlying_leafWords, hu, DType.leafWords, hkind] at hlen
    exact List.exists_cons_of_length_eq_add_one hlen
  have hint : k.value.type.underlying.isInterfaceType = true := by
    change k.type.underlying.isInterfaceType = true
    rw [hu]
    exact (Uprobe.structKind_iface hkind).1
  rw [h.word_head hwords] at hzero
  obtain ⟨cur, cur', hprep⟩ := h.prepared
  rw [hwords, prepareLeaves_zero hint hzero] at hprep
  exact hnil (congrArg Prod.fst hprep).symm

/-- A struct whose words could be read is rendered from their image. -/
theorem RenderedKept.prepared_plain (h : RenderedKept recipes regs u data x k)
    (hplain : k.type.isPlain = true) (hnil : k.type.hasNil env = true)
    (hread : ∀ leaf ∈ x.words, leaf.unavailable = false) :
    ∃ snap, x.prepared = .dynamic "" k.type
      (Uprobe.scatterWords k.type (Uprobe.concatLeaves x.words)) 0 snap := by
  obtain ⟨n, s, b, fs, hu, hkind⟩ := Uprobe.isPlain_iff.mp hplain
  have hpos := Uprobe.leafWords_pos k.type hnil
  have hlen : (Uprobe.concatLeaves x.words).length = 8 * k.type.leafWords := by
    rw [concatLeaves_length h.captured.holds, DType.wordSpecs_length]
  have hsome : Uprobe.concatLeaves x.words ≠ [] := List.ne_nil_of_length_pos (by omega)
  obtain ⟨cur, cur', hprep⟩ := h.prepared
  rw [Kept.value, prepareLeaves_plain hu hkind (by simpa using hread) hsome] at hprep
  exact ⟨_, (congrArg Prod.fst hprep).symm⟩

/-- Where every printed nil was nil, the type words in the registers were read. -/
theorem RenderedKept.typeWords_of_nil (h : RenderedKept recipes regs u data x k)
    (hown : x.Undisturbed regs.reg u.mem env) (hreal : NilsReal regs.reg u.mem env x) :
    TypeWords regs.reg env x := by
  by_cases hiface : k.type.isIface = true
  · exact h.typeWords_iface_of_nil hiface hreal.text
  rw [TypeWords, h.planned]
  intro hread
  change TypesRead env k.type _ _ _
  by_cases hnil : k.type.hasNil env = true
  · by_cases hplain : k.type.isPlain = true
    · obtain ⟨snap, hdyn⟩ := h.prepared_plain hplain hnil (hread hplain)
      obtain ⟨hlaid, hparts, husual⟩ := hown _ _ _ _ _ hdyn hnil
      rw [h.planned] at hlaid
      have hhome : x.home regs.reg = .words (x.trueWords regs.reg) := by
        obtain ⟨n, s, b, fs, hu, -⟩ := Uprobe.isPlain_iff.mp hplain
        rw [Rendering.home, h.planned]
        change (if k.type.underlying.isPtr = true then _ else _) = _
        rw [hu]
        rfl
      have hreached := hreal.reached _ _ _ _ _ hdyn
      rw [hhome] at hparts husual hreached
      refine (h.inWords (hlaid hplain) _).typesRead husual fun s hs => ?_
      rw [← Uprobe.nilVisited_congr hparts] at hs
      exact (hreached s (Uprobe.nilVisited_subset hs)).nil
    · exact Uprobe.typesRead_of_not_struct hiface hplain
  · exact Uprobe.typesRead_of_not_hasNil _ _ hnil

end

def emptyMemory : UserMemory where
  mem := fun _ => 0
  fails := fun _ _ => false

/-- `struct { next *T }`. -/
def nextType : DType :=
  .struct "main.S" "main.S" 8 (.cons "next" 0 (.ptr "*main.T" 8 (.other "main.T" "main.T" 8)) .nil)

/-- The copy of the object. -/
def nextSnapshot : MemSnapshot where
  chunks := [{ addr := 0x1000, data := List.replicate 64 0 }]

theorem nextSnapshot_exact : exactRead emptyMemory.mem nextSnapshot.read = nextSnapshot.read := by
  have hslots : nextSnapshot = slotSnapshot emptyMemory.mem [⟨0x1000, 0x1000, 64⟩] := by
    with_unfolding_all rfl
  funext addr n
  rw [exactRead]
  cases hread : nextSnapshot.read addr n with
  | none => rfl
  | some bs =>
    rw [hslots] at hread
    refine congrArg some ((slots_sound _ (addr, n)).mpr (fun s hs => ?_) bs hread).symm
    obtain rfl := List.mem_singleton.mp (List.mem_of_find?_eq_some hs)
    exact Slot.trueAt rfl rfl _

theorem next_usual :
    ∀ s ∈ Spot.nilVisited unresolved nextSnapshot.read emptyMemory.mem maxDynamicDepth
      ⟨⟨nextType, List.replicate 64 0, 0x1000⟩, .memory 0x1000⟩,
        s.Usual unresolved nextSnapshot.read emptyMemory.mem := by
  have hvisited : Spot.nilVisited unresolved nextSnapshot.read emptyMemory.mem maxDynamicDepth
      ⟨⟨nextType, List.replicate 64 0, 0x1000⟩, .memory 0x1000⟩ =
      [⟨⟨nextType, List.replicate 64 0, 0x1000⟩, .memory 0x1000⟩,
        ⟨⟨.ptr "*main.T" 8 (.other "main.T" "main.T" 8), List.replicate 8 0, 0x1000⟩,
          .memory 0x1000⟩] := by with_unfolding_all rfl
  rw [hvisited]
  refine List.forall_mem_cons.mpr ⟨⟨nofun, ?_, nofun⟩,
    List.forall_mem_singleton.mpr ⟨?_, nofun, nofun⟩⟩
  · intro n st b fs nonEmpty hu hkind
    cases hu
    have hplain : structKind "main.S"
        (.cons "next" 0 (.ptr "*main.T" 8 (.other "main.T" "main.T" 8)) .nil) = .plain := by
      with_unfolding_all rfl
    cases hplain.symm.trans hkind
  · exact fun _ _ _ _ _ _ => rfl

/-- The first two argument registers hold an itab and a data word. -/
def ifaceRegs : PtRegs where
  ip := 0
  reg := fun r => if r = .ax then 0x2000 else if r = .bx then 0x3000 else 0

end GoFtrace.Tracing
