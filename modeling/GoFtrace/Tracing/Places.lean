import GoFtrace.Tracing.Capture
import GoFtrace.Uprobe.Reads

/-!
# Places

What `renderAuto` renders of a value and where it puts the captures of the value, as
functions of the leaves.

* `prepareLeaves_eq`: `renderAuto` without recipes.
* `places_fetchable`, `places_addr`: how the captures that are put were fetched.
-/

namespace GoFtrace.Tracing

open Lib (Memory word)
open Uprobe (DType Fields structKind ArgSpec LeafData MemSnapshot abiRegs Call)

/-! ## No recipes -/

def noRecipes : Uprobe.Recipes := fun _ => []

theorem applyRecipeExtras_noRecipes (typeAddr dataPtr : UInt64) (all : List LeafData)
    (k : Uprobe.Cursor) (snap : MemSnapshot) :
    Uprobe.applyRecipeExtras noRecipes typeAddr dataPtr all k snap = (k, snap) := by
  unfold Uprobe.applyRecipeExtras
  split <;> rfl

mutual

theorem applyNestedRecipes_noRecipes (all : List LeafData) : ∀ (t : DType) (mem : List UInt8)
    (k : Uprobe.Cursor) (snap : MemSnapshot),
    t.applyNestedRecipes noRecipes all mem k snap = (k, snap)
  | .typedef _ t, mem, k, snap => applyNestedRecipes_noRecipes all t mem k snap
  | .qual _ t, mem, k, snap => applyNestedRecipes_noRecipes all t mem k snap
  | .struct _ s _ fs, mem, k, snap => by
    rw [DType.applyNestedRecipes]
    split
    · exact applyRecipeExtras_noRecipes _ _ all k snap
    · split
      · rfl
      · exact applyFieldRecipes_noRecipes all fs mem k snap
  | .ptr _ _ _, _, _, _ => rfl
  | .basic _ _ _, _, _, _ => rfl
  | .func _ _ _, _, _, _ => rfl
  | .other _ _ _, _, _, _ => rfl

theorem applyFieldRecipes_noRecipes (all : List LeafData) : ∀ (fs : Fields) (mem : List UInt8)
    (k : Uprobe.Cursor) (snap : MemSnapshot),
    fs.applyNestedRecipes noRecipes all mem k snap = (k, snap)
  | .nil, _, _, _ => rfl
  | .cons _ off t rest, mem, k, snap => by
    rw [Fields.applyNestedRecipes, applyNestedRecipes_noRecipes all t]
    exact applyFieldRecipes_noRecipes all rest mem k snap

end

theorem objectPointee_eq {n : String} {b : Int} {elem e : DType}
    (h : (DType.ptr n b elem).objectPointee = some e) : e = elem := by
  unfold DType.objectPointee at h
  dsimp only at h
  split at h
  · split at h
    · cases h
    · exact (Option.some.inj h).symm
  · cases h

/-! ## What is rendered -/

/-- Whether the first word of an interface says that it is nil. -/
def saysNil (words : List LeafData) : Bool := words.head?.any fun w => w.isNil || word w.data == 0

/-- The call that renders a value, unless its leaves say that it is nil or could not be
read. -/
def subject (t : DType) (words captures : List LeafData) : Option Call :=
  let header := Uprobe.concatLeaves words
  if words.any (·.unavailable) || header.isEmpty ||
      (t.underlying.isInterfaceType && saysNil words) then none
  else
    match t.underlying with
    | .ptr n b elem =>
      match (DType.ptr n b elem).objectPointee, captures with
      | some _, obj :: _ =>
        if word header == 0 || obj.isNil || obj.unavailable then none
        else some ⟨elem, obj.data, word header⟩
      | _, _ => none
    | .struct _ s _ fs =>
      if structKind s fs = .plain then some ⟨t, Uprobe.scatterWords t header, 0⟩
      else some ⟨t, header, 0⟩
    | _ => some ⟨t, header, 0⟩

/-- Where the captures of a value are put, `0` for nowhere. -/
def places (t : DType) (words captures : List LeafData) : List UInt64 :=
  let header := Uprobe.concatLeaves words
  match t.underlying with
  | .ptr _ _ elem =>
    match captures with
    | [] => []
    | obj :: _ => word header :: memPlaces elem obj.data
  | .struct _ s _ fs =>
    match structKind s fs with
    | .plain => (t.pointers (Uprobe.scatterWords t header)).map word
    | .iface _ => [Uprobe.ifaceDataWord header]
    | _ => [word header]
  | _ => []

/-- What `renderAuto` prepares: a text, or a call over the snapshot of the captures. -/
inductive PreparesAs (places : List UInt64) (captures : List LeafData) :
    Option Call → Uprobe.Prepared → Prop
  | text (s : String) : PreparesAs places captures none (.text s)
  | call (lead : String) (c : Call) : PreparesAs places captures (some c)
      (.dynamic lead c.type c.data c.addr (putAll places captures {}))

namespace PreparesAs
variable {places : List UInt64} {captures : List LeafData} {o : Option Call} {p : Uprobe.Prepared}

theorem subject (h : PreparesAs places captures o p) {lead : String} {ty : DType}
    {data : List UInt8} {addr : UInt64} {snap : MemSnapshot}
    (hp : p = .dynamic lead ty data addr snap) :
    o = some ⟨ty, data, addr⟩ ∧ snap = putAll places captures {} := by
  subst hp
  cases h with
  | call lead c => exact ⟨rfl, rfl⟩

theorem dynamic (h : PreparesAs places captures o p) {c : Call} (hc : o = some c) :
    ∃ lead, p = .dynamic lead c.type c.data c.addr (putAll places captures {}) := by
  subst hc
  cases h with
  | call lead c => exact ⟨lead, rfl⟩

end PreparesAs

section
variable {t : DType} {words captures all : List LeafData} {k : Uprobe.Cursor}

theorem preparePointer_eq {n : String} {b : Int} {elem : DType}
    (hu : t.underlying = .ptr n b elem) (hcount : captures.length = t.captureCount)
    (hpresent : (words.any (·.unavailable) || (Uprobe.concatLeaves words).isEmpty ||
      (t.underlying.isInterfaceType && saysNil words)) = false)
    (hnil : ∀ obj rest, captures = obj :: rest → obj.isNil = false) :
    PreparesAs (places t words captures) captures (subject t words captures)
      (Uprobe.preparePointer noRecipes (.ptr n b elem) elem (Uprobe.concatLeaves words) captures
        all k).1 := by
  rw [DType.captureCount, hu] at hcount
  unfold Uprobe.preparePointer subject places
  dsimp only
  rw [hpresent, if_neg Bool.false_ne_true, hu]
  dsimp only
  by_cases hzero : word (Uprobe.concatLeaves words) = 0
  · rw [if_pos hzero]
    cases (DType.ptr n b elem).objectPointee with
    | none => exact .text _
    | some e =>
      cases captures with
      | nil => exact .text _
      | cons obj rest =>
        dsimp only
        rw [if_pos (by simp [hzero])]
        exact .text _
  rw [if_neg hzero]
  cases hobj : (DType.ptr n b elem).objectPointee with
  | none =>
    rw [Option.isSome_none, if_neg Bool.false_ne_true]
    exact .text _
  | some e =>
    rw [Option.isSome_some, if_pos rfl]
    obtain rfl := objectPointee_eq hobj
    rw [hobj] at hcount
    cases captures with
    | nil => exact .text _
    | cons obj rest =>
      dsimp only at hcount ⊢
      rw [List.length_cons] at hcount
      have hrest := consumeMemCaptures_eq e obj.data rest []
        (MemSnapshot.put {} (word (Uprobe.concatLeaves words)) obj) (by omega)
      rw [List.append_nil] at hrest
      cases hun : obj.unavailable with
      | true =>
        rw [if_pos rfl, if_pos (by simp)]
        exact .text _
      | false =>
        rw [if_neg Bool.false_ne_true, if_neg (by simp [hzero, hnil obj rest rfl]),
          applyNestedRecipes_noRecipes, hrest]
        exact .call "&" ⟨e, obj.data, word (Uprobe.concatLeaves words)⟩

theorem prepareStruct_eq {n s : String} {b : Int} {fs : Fields}
    (hu : t.underlying = .struct n s b fs) (hcount : captures.length = t.captureCount)
    (hpresent : (words.any (·.unavailable) || (Uprobe.concatLeaves words).isEmpty ||
      (t.underlying.isInterfaceType && saysNil words)) = false) :
    PreparesAs (places t words captures) captures (subject t words captures)
      (Uprobe.prepareStruct noRecipes t (structKind s fs) (Uprobe.concatLeaves words) captures
        all k).1 := by
  have hobj : t.underlying.objectPointee = none := by rw [hu]; rfl
  rw [DType.captureCount, hobj] at hcount
  unfold subject places
  dsimp only at hcount ⊢
  rw [hpresent, if_neg Bool.false_ne_true, hu]
  dsimp only
  cases hkind : structKind s fs with
  | plain =>
    have hcons := consumeRegCaptures_eq t (Uprobe.scatterWords t (Uprobe.concatLeaves words))
      captures [] {} hcount
    rw [List.append_nil] at hcons
    rw [Uprobe.prepareStruct, hcons, if_pos rfl]
    exact .call "" ⟨t, Uprobe.scatterWords t (Uprobe.concatLeaves words), 0⟩
  | string =>
    rw [← DType.underlying_extraCaptures, hu, DType.extraCaptures, hkind] at hcount
    obtain ⟨leaf, rfl⟩ := List.length_eq_one_iff.mp hcount
    exact .call "" ⟨t, Uprobe.concatLeaves words, 0⟩
  | slice =>
    rw [← DType.underlying_extraCaptures, hu, DType.extraCaptures, hkind] at hcount
    obtain ⟨leaf, rfl⟩ := List.length_eq_one_iff.mp hcount
    exact .call "" ⟨t, Uprobe.concatLeaves words, 0⟩
  | iface nonEmpty =>
    rw [← DType.underlying_extraCaptures, hu, DType.extraCaptures, hkind] at hcount
    obtain ⟨leaf, rfl⟩ := List.length_eq_one_iff.mp hcount
    have hbind : Uprobe.bindIfaceCaptures (Uprobe.concatLeaves words) [leaf] {} =
        putAll [Uprobe.ifaceDataWord (Uprobe.concatLeaves words)] [leaf] {} := by
      unfold Uprobe.bindIfaceCaptures Uprobe.ifaceDataWord
      dsimp only
      split
      · rw [if_neg (by omega)]
        rfl
      · rw [if_pos (by omega)]
        rfl
    have hrecipes : ∀ snap, (if 16 ≤ (Uprobe.concatLeaves words).length then
        Uprobe.applyRecipeExtras noRecipes (word (Uprobe.concatLeaves words))
          (word ((Uprobe.concatLeaves words).drop 8)) all k snap else (k, snap)) = (k, snap) := by
      intro snap
      rw [applyRecipeExtras_noRecipes, ite_self]
    rw [Uprobe.prepareStruct]
    dsimp only
    rw [hrecipes, hbind]
    exact .call "" ⟨t, Uprobe.concatLeaves words, 0⟩

/-- `renderAuto` without recipes: the call it makes and the snapshot that it puts together. -/
theorem prepareLeaves_eq (name : String) (hcount : captures.length = t.captureCount) :
    PreparesAs (places t words captures) captures (subject t words captures)
      (Uprobe.prepareLeaves noRecipes (t.value name) words captures all k).1 := by
  unfold Uprobe.prepareLeaves
  extract_lets t' ifaceNil objNil header
  have hiface : ifaceNil = (t.underlying.isInterfaceType && saysNil words) := by
    cases words <;> rfl
  have hobj : objNil = false → t.underlying.isPtr = true →
      ∀ obj rest, captures = obj :: rest → obj.isNil = false := by
    rintro hno hptr obj rest rfl
    change t'.isPtr = true at hptr
    simpa [objNil, hptr] using hno
  have hnone : ∀ s, subject t words captures = none →
      PreparesAs (places t words captures) captures (subject t words captures)
        (.text s) := fun s h => h ▸ .text s
  split
  · rename_i hyes
    rw [hiface] at hyes
    exact hnone _ (by simp [subject, hyes])
  rename_i hno
  rw [hiface] at hno
  split
  · rename_i havail
    exact hnone _ (by simp [subject, havail])
  rename_i havail
  split
  · rename_i hnil
    refine hnone _ ?_
    obtain ⟨hptr, obj, rest, rfl, hobjNil⟩ : t.underlying.isPtr = true ∧ ∃ obj rest,
        captures = obj :: rest ∧ obj.isNil = true := by
      rw [Bool.and_eq_true] at hnil
      refine ⟨hnil.1, ?_⟩
      cases captures with
      | nil => cases hnil.2
      | cons obj rest => exact ⟨obj, rest, rfl, hnil.2⟩
    unfold subject
    cases hu : t.underlying with
    | ptr n b elem =>
      dsimp only
      split
      · rfl
      cases (DType.ptr n b elem).objectPointee with
      | none => rfl
      | some e => exact if_pos (by simp [hobjNil])
    | _ => rw [hu] at hptr; cases hptr
  rename_i hobjNil
  split
  · rename_i hempty
    have hempty' : (Uprobe.concatLeaves words).isEmpty = true := hempty
    exact hnone _ (by simp [subject, hempty'])
  rename_i hheader
  have hpresent : (words.any (·.unavailable) || (Uprobe.concatLeaves words).isEmpty ||
      (t.underlying.isInterfaceType && saysNil words)) = false := by
    simp only [Bool.or_eq_false_iff]
    exact ⟨⟨Bool.eq_false_iff.mpr havail, Bool.eq_false_iff.mpr hheader⟩, Bool.eq_false_iff.mpr hno⟩
  cases hu : t' with
  | ptr n b elem =>
    have hptr : t.underlying.isPtr = true := by
      change t'.isPtr = true
      rw [hu]
      rfl
    exact preparePointer_eq hu hcount hpresent (hobj (Bool.eq_false_iff.mpr hobjNil) hptr)
  | struct n s b fs => exact prepareStruct_eq hu hcount hpresent
  | _ =>
    have hu' : t.underlying = _ := hu
    unfold subject places
    dsimp only
    rw [hpresent, if_neg Bool.false_ne_true, hu']
    exact .call "" ⟨t, Uprobe.concatLeaves words, 0⟩

end

/-- Whether a value points to an object with a non-empty interface in its first 64 bytes. -/
def pointsToItab (t : DType) : Bool :=
  match t.underlying.objectPointee with
  | some elem => hasItab Bpf.maxDataSize elem
  | none => false

/-- A struct in registers whose pointers stay in place; other values have none in an image. -/
def placed (t : DType) : Bool :=
  match t.underlying with
  | .struct _ s _ fs => structKind s fs != .plain || Uprobe.inPlace t
  | _ => true

/-- The pointers of a struct in registers are found in its image, for the words at hand. -/
def PointersFound (t : DType) (header : List UInt8) : Prop :=
  match t.underlying with
  | .struct _ s _ fs => structKind s fs = .plain → Uprobe.Agree t header
  | _ => True

theorem pointersFound_of_placed {t : DType} (hsmall : 8 * t.leafWords < 256)
    (hplaced : placed t = true) {header : List UInt8} (hlen : header.length = 8 * t.leafWords) :
    PointersFound t header := by
  unfold PointersFound
  split
  · rename_i n s b fs hu
    intro hkind
    rw [placed, hu] at hplaced
    have hinPlace : Uprobe.inPlace t = true := by simpa [hkind] using hplaced
    exact (Uprobe.agree_iff hsmall).mpr hinPlace _ hlen
  · trivial

theorem pointersFound_of_not_plain {t : DType} (h : ¬ t.isPlain = true) {header : List UInt8} :
    PointersFound t header := by
  unfold PointersFound
  split
  · rename_i n s b fs hu
    exact fun hkind => absurd (by simp [DType.isPlain, hu, hkind]) h
  · trivial

/-- The leaves of a value that its captures depend on: the words hold the registers, and the
object copy, if there is one, holds the memory. -/
structure Captured (regs : Uprobe.Reg → UInt64) (m : Memory) (name : String) (t : DType) (w : Nat)
    (words captures : List LeafData) : Prop where
  holds : HoldsWords regs (t.wordSpecs name w) words
  count : captures.length = t.captureCount
  object : t.underlying.objectPointee.isSome = true → ∀ obj rest, captures = obj :: rest →
    obj.isNil = false → obj.unavailable = false →
    obj.data = m.slice (regValue regs abiRegs[w]?) Bpf.maxDataSize

section
variable {regs : Uprobe.Reg → UInt64} {m : Memory} {name : String} {t : DType} {w : Nat}
  {words captures : List LeafData}

theorem Captured.pointer_word {n : String} {b : Int} {elem : DType}
    (h : Captured regs m name t w words captures) (hu : t.underlying = .ptr n b elem) :
    word (Uprobe.concatLeaves words) = regValue regs abiRegs[w]? := by
  have hspecs : t.wordSpecs name w = [Uprobe.scalarRegSpec name 8 "u64" abiRegs[w]?] := by
    rw [← DType.underlying_wordSpecs, hu]; rfl
  have hwords := h.holds
  rw [hspecs] at hwords
  obtain ⟨leaf, _, hleaf, hmore, rfl⟩ := List.forall₂_cons_left_iff.mp hwords
  obtain rfl := List.forall₂_nil_left_iff.mp hmore
  rw [Uprobe.concatLeaves, List.flatMap_cons, List.flatMap_nil, List.append_nil,
    Lib.word_take (Nat.le_refl 8)]
  exact hleaf.scalar

/-- The words of a string, a slice or an interface. -/
theorem header_words {n s : String} {b : Int} {fs : Fields}
    (hwords : HoldsWords regs ((DType.struct n s b fs).wordSpecs name w) words)
    (hkind : structKind s fs ≠ .plain) :
    (structKind s fs = .string ∨ structKind s fs = .slice →
      word (Uprobe.concatLeaves words) = regValue regs abiRegs[w]?) ∧
    (∀ nonEmpty, structKind s fs = .iface nonEmpty →
      word ((Uprobe.concatLeaves words).drop 8) = regValue regs abiRegs[w + 1]?) := by
  rw [DType.wordSpecs] at hwords
  cases hk : structKind s fs with
  | plain => exact absurd hk hkind
  | string =>
    simp only [hk] at hwords
    obtain ⟨data, _, hdata, hmore, rfl⟩ := List.forall₂_cons_left_iff.mp hwords
    obtain ⟨len, more, hlen, -, rfl⟩ := List.forall₂_cons_left_iff.mp hmore
    obtain ⟨-, hword, -⟩ := word_concatLeaves more [] hdata.1 hlen.1
    rw [List.append_nil] at hword
    exact ⟨fun _ => hword.trans hdata.scalar, fun _ h => by cases h⟩
  | slice =>
    simp only [hk] at hwords
    obtain ⟨data, _, hdata, hmore, rfl⟩ := List.forall₂_cons_left_iff.mp hwords
    obtain ⟨len, more, hlen, -, rfl⟩ := List.forall₂_cons_left_iff.mp hmore
    obtain ⟨-, hword, -⟩ := word_concatLeaves more [] hdata.1 hlen.1
    rw [List.append_nil] at hword
    exact ⟨fun _ => hword.trans hdata.scalar, fun _ h => by cases h⟩
  | iface nonEmpty =>
    simp only [hk] at hwords
    obtain ⟨type, _, htype, hmore, rfl⟩ := List.forall₂_cons_left_iff.mp hwords
    obtain ⟨data, more, hdata, -, rfl⟩ := List.forall₂_cons_left_iff.mp hmore
    obtain ⟨-, -, hword⟩ := word_concatLeaves more [] htype.1 hdata.1
    rw [List.append_nil] at hword
    refine ⟨fun h => ?_, fun _ _ => hword.trans hdata.scalar⟩
    rcases h with h | h <;> cases h

mutual

theorem regJobs_fetchable (name : String) : ∀ (t : DType) (w : Nat),
    w + t.leafWords ≤ abiRegs.length → ∀ job ∈ t.regJobs name w, Fetchable false job.spec
  | .typedef _ t, w, h => regJobs_fetchable name t w h
  | .qual _ t, w, h => regJobs_fetchable name t w h
  | .struct _ s _ fs, w, h => by
    rw [DType.leafWords] at h
    rw [DType.regJobs]
    cases hkind : structKind s fs with
    | plain =>
      rw [hkind] at h
      exact fieldJobs_fetchable name fs w h
    | string =>
      simp only [hkind, Uprobe.StructKind.words] at h
      exact List.forall_mem_singleton.mpr ((located_reg (by omega) _).blobAt _ _)
    | slice =>
      simp only [hkind, Uprobe.StructKind.words] at h
      exact List.forall_mem_singleton.mpr ((located_reg (by omega) _).blobAt _ _)
    | iface nonEmpty =>
      simp only [hkind, Uprobe.StructKind.words] at h
      exact List.forall_mem_singleton.mpr ((located_reg (by omega) _).blobAt _ _)
  | .ptr _ _ _, _, _ => nofun
  | .basic _ _ _, _, _ => nofun
  | .func _ _ _, _, _ => nofun
  | .other _ _ _, _, _ => nofun

theorem fieldJobs_fetchable (name : String) : ∀ (fs : Fields) (w : Nat),
    w + fs.leafWords ≤ abiRegs.length → ∀ job ∈ fs.regJobs name w, Fetchable false job.spec
  | .nil, _, _ => nofun
  | .cons n _ t rest, w, h => by
    rw [Fields.leafWords] at h
    rw [Fields.regJobs]
    exact List.forall_mem_append.mpr ⟨regJobs_fetchable _ t w (by omega),
      fieldJobs_fetchable name rest _ (by omega)⟩

end

/-- A pointer is rendered when there is a copy of its object. -/
theorem subject_pointer {n : String} {b : Int} {elem : DType} {c : Call}
    (hu : t.underlying = .ptr n b elem) (h : subject t words captures = some c) :
    (DType.ptr n b elem).objectPointee = some elem ∧ ∃ obj rest, captures = obj :: rest ∧
      obj.isNil = false ∧ obj.unavailable = false ∧
        c = ⟨elem, obj.data, word (Uprobe.concatLeaves words)⟩ := by
  unfold subject at h
  dsimp only at h
  split at h
  · cases h
  rw [hu] at h
  dsimp only at h
  split at h
  · rename_i e obj rest hobj
    obtain rfl := objectPointee_eq hobj
    split at h
    · cases h
    · rename_i hcond
      simp only [Bool.or_eq_true, not_or, Bool.not_eq_true] at hcond
      exact ⟨hobj, obj, rest, rfl, hcond.1.2, hcond.2, (Option.some.inj h).symm⟩
  · cases h

/-- The captures of an object are put where they were fetched. -/
theorem object_places {n : String} {b : Int} {elem : DType} {c : Call}
    (h : Captured regs m name t w words captures) (hin : w + t.leafWords ≤ abiRegs.length)
    (hu : t.underlying = .ptr n b elem) (hsubject : subject t words captures = some c) :
    List.Forall₂ (PutAt regs m (Fetchable (pointsToItab t))) (places t words captures)
      (t.captureSpecs name w) := by
  obtain ⟨hobj, obj, rest, rfl, hnil, havail, -⟩ := subject_pointer hu hsubject
  have hsome : t.underlying.objectPointee.isSome = true := by rw [hu, hobj]; rfl
  have hdata := h.object hsome obj rest rfl hnil havail
  have hone : t.leafWords = 1 := by rw [← DType.underlying_leafWords, hu]; rfl
  have hloc : Located { reg := abiRegs[w]?, nilCheck := true } := located_reg (by omega) true
  have hitab : pointsToItab t = hasItab Bpf.maxDataSize elem := by
    rw [pointsToItab, hu, hobj]
  have hplaces := memPlaces_addr regs m name elem { reg := abiRegs[w]?, nilCheck := true }
    Bpf.maxDataSize (by decide) fun _ => hloc
  rw [locAddr_reg] at hplaces
  have hword := h.pointer_word hu
  rw [places, DType.captureSpecs, hu, hobj, hitab]
  dsimp only
  rw [hdata]
  exact .cons (.inr ⟨by rw [hword, leafAddr_blobAt_reg], hloc.blobAt _ _⟩) hplaces

/-- The capture of a string, a slice or an interface in registers. -/
theorem header_places {n s : String} {b : Int} {fs : Fields}
    (h : Captured regs m name t w words captures) (hin : w + t.leafWords ≤ abiRegs.length)
    (hu : t.underlying = .struct n s b fs) (hkind : structKind s fs ≠ .plain) :
    List.Forall₂ (PutAt regs m (Fetchable false)) (places t words captures)
      (t.captureSpecs name w) := by
  have hobj : t.underlying.objectPointee = none := by rw [hu]; rfl
  have hneed : t.leafWords = (DType.struct n s b fs).leafWords := by
    rw [← hu, DType.underlying_leafWords]
  have hwords := h.holds
  rw [← DType.underlying_wordSpecs, hu] at hwords
  obtain ⟨hback, hiface⟩ := header_words hwords hkind
  rw [places, DType.captureSpecs, hobj, ← DType.underlying_regJobs, hu, DType.regJobs]
  rw [DType.leafWords] at hneed
  cases hk : structKind s fs with
  | plain => exact absurd hk hkind
  | string =>
    simp only [hk, Uprobe.StructKind.words] at hneed
    simp only [hk]
    refine .cons (.inr ⟨?_, (located_reg (by omega) _).blobAt _ _⟩) .nil
    exact (hback (.inl hk)).trans (leafAddr_blobAt_reg regs m (name ++ ".str") _ _).symm
  | slice =>
    simp only [hk, Uprobe.StructKind.words] at hneed
    simp only [hk]
    refine .cons (.inr ⟨?_, (located_reg (by omega) _).blobAt _ _⟩) .nil
    exact (hback (.inr hk)).trans (leafAddr_blobAt_reg regs m (name ++ ".arr") _ _).symm
  | iface nonEmpty =>
    simp only [hk, Uprobe.StructKind.words] at hneed
    have hdata : PutAt regs m (Fetchable false)
        (Uprobe.ifaceDataWord (Uprobe.concatLeaves words)) (Uprobe.blobAt (name ++ ".value")
          { reg := abiRegs[w + 1]?, nilCheck := true }) := by
      unfold Uprobe.ifaceDataWord
      split
      · refine .inr ⟨?_, (located_reg (by omega) _).blobAt _ _⟩
        rw [hiface nonEmpty hk, leafAddr_blobAt_reg]
      · exact .inl rfl
    simp only [hk]
    exact .cons hdata .nil

/-- The captures of a struct in registers are put at the pointers found in its image. -/
theorem struct_places (name : String) (words captures : List LeafData) {n s : String} {b : Int}
    {fs : Fields} (hin : w + t.leafWords ≤ abiRegs.length)
    (hu : t.underlying = .struct n s b fs) (hkind : structKind s fs = .plain) :
    places t words captures =
        (t.pointers (Uprobe.scatterWords t (Uprobe.concatLeaves words))).map word ∧
      t.captureSpecs name w = (t.regJobs name w).map Uprobe.CaptureJob.spec ∧
      (places t words captures).length = (t.captureSpecs name w).length ∧
      ∀ s ∈ t.captureSpecs name w, Fetchable false s := by
  have hobj : t.underlying.objectPointee = none := by rw [hu]; rfl
  have hspecs : t.captureSpecs name w = (t.regJobs name w).map Uprobe.CaptureJob.spec := by
    rw [DType.captureSpecs, hobj]
  have hplaces : places t words captures =
      (t.pointers (Uprobe.scatterWords t (Uprobe.concatLeaves words))).map word := by
    rw [places, hu]
    simp only [hkind]
  refine ⟨hplaces, hspecs, ?_, fun s hs => ?_⟩
  · rw [hplaces, hspecs, List.length_map, List.length_map, Uprobe.pointers_length,
      DType.regJobs_length]
  · rw [hspecs] at hs
    obtain ⟨job, hjob, rfl⟩ := List.mem_map.mp hs
    exact regJobs_fetchable name t w hin job hjob

theorem struct_addr {n s : String} {b : Int} {fs : Fields}
    (h : Captured regs m name t w words captures) (hin : w + t.leafWords ≤ abiRegs.length)
    (hu : t.underlying = .struct n s b fs) (hkind : structKind s fs = .plain)
    (hagree : Uprobe.Agree t (Uprobe.concatLeaves words)) :
    List.Forall₂ (PutAt regs m (Fetchable false)) (places t words captures)
      (t.captureSpecs name w) := by
  obtain ⟨hplaces, hspecs, -, hok⟩ := struct_places name words captures hin hu hkind
  have haddr := ownPointers_addr regs m name t w words [] h.holds
  rw [List.append_nil] at haddr
  have hput : List.Forall₂ (fun place s => place = 0 ∨ place = leafAddr regs m s)
      (places t words captures) (t.captureSpecs name w) := by
    rw [hplaces, hspecs, List.forall₂_map_left_iff]
    exact forall₂_comp (fun _ _ _ hpointer hown => hown ▸ hpointer) hagree haddr
  rw [List.forall₂_iff_zip] at hput ⊢
  exact ⟨hput.1, fun hq => (hput.2 hq).imp_right fun heq => ⟨heq, hok _ (List.of_mem_zip hq).2⟩⟩

/-- The captures of a value are put where they were fetched, those of a struct in registers
if its pointers are found. -/
theorem places_addr {c : Call} (h : Captured regs m name t w words captures)
    (hin : w + t.leafWords ≤ abiRegs.length)
    (hfound : PointersFound t (Uprobe.concatLeaves words))
    (hsubject : subject t words captures = some c) :
    List.Forall₂ (PutAt regs m (Fetchable (pointsToItab t))) (places t words captures)
      (t.captureSpecs name w) := by
  have hweaken : ∀ s, Fetchable false s → Fetchable (pointsToItab t) s := fun s hs =>
    hs.mono fun hno => absurd hno Bool.false_ne_true
  cases hu : t.underlying with
  | ptr n b elem => exact object_places h hin hu hsubject
  | struct n s b fs =>
    by_cases hkind : structKind s fs = .plain
    · rw [PointersFound, hu] at hfound
      exact (struct_addr h hin hu hkind (hfound hkind)).imp fun _ _ hput => hput.mono hweaken
    · exact (header_places h hin hu hkind).imp fun _ _ hput => hput.mono hweaken
  | basic kind n b =>
    rw [places, DType.captureSpecs, ← DType.underlying_regJobs, hu]
    exact .nil
  | func n x b =>
    rw [places, DType.captureSpecs, ← DType.underlying_regJobs, hu]
    exact .nil
  | other n x b =>
    rw [places, DType.captureSpecs, ← DType.underlying_regJobs, hu]
    exact .nil
  | typedef n u => exact absurd hu (t.underlying_ne_typedef n u)
  | qual q u => exact absurd hu (t.underlying_ne_qual q u)

/-- What is put was fetched by a rule chain that `struct arg_rule` holds. -/
theorem places_fetchable {c : Call} (h : Captured regs m name t w words captures)
    (hin : w + t.leafWords ≤ abiRegs.length) (hsubject : subject t words captures = some c) :
    List.Forall₂ (fun place s => place = 0 ∨ Fetchable (pointsToItab t) s)
      (places t words captures) (t.captureSpecs name w) := by
  by_cases hplain : t.isPlain = true
  · obtain ⟨n, s, b, fs, hu, hkind⟩ := Uprobe.isPlain_iff.mp hplain
    obtain ⟨-, -, hlen, hok⟩ := struct_places name words captures hin hu hkind
    refine List.forall₂_iff_zip.mpr ⟨hlen, fun hq => .inr ?_⟩
    exact (hok _ (List.of_mem_zip hq).2).mono fun hno => absurd hno Bool.false_ne_true
  · refine (places_addr h hin (pointersFound_of_not_plain hplain) hsubject).imp ?_
    exact fun _ _ hput => hput.imp_right And.right

/-- Every capture leaf that the renderer puts in the snapshot of a value is put where its
rule chain has fetched it. -/
theorem prepareLeaves_puts {all : List LeafData} {k k' : Uprobe.Cursor} {lead : String}
    {ty : DType} {data : List UInt8} {addr : UInt64} {snap : MemSnapshot}
    (h : Captured regs m name t w words captures) (hin : w + t.leafWords ≤ abiRegs.length)
    (hfound : PointersFound t (Uprobe.concatLeaves words))
    (hprep : Uprobe.prepareLeaves noRecipes (t.value name) words captures all k =
      (.dynamic lead ty data addr snap, k')) :
    Puts regs m (Fetchable (pointsToItab t)) (t.captureSpecs name w) captures {} snap := by
  obtain ⟨hsubject, rfl⟩ := (prepareLeaves_eq name h.count).subject (congrArg Prod.fst hprep)
  exact putAll_puts (places_addr h hin hfound hsubject)
    (by rw [h.count, DType.captureSpecs_length]) {}

/-- What `renderAuto` renders from the bytes of a value has passed its guards. -/
theorem prepareLeaves_dynamic {recipes : Uprobe.Recipes} {v : Uprobe.Value} {all : List LeafData}
    {k k' : Uprobe.Cursor} {lead : String} {ty : DType} {data : List UInt8} {addr : UInt64}
    {snap : MemSnapshot}
    (h : Uprobe.prepareLeaves recipes v words captures all k =
      (.dynamic lead ty data addr snap, k')) :
    (v.type.underlying.isPtr = true → ∀ obj rest, captures = obj :: rest → obj.isNil = false) ∧
      (match v.type.underlying with
        | .ptr n b elem => Uprobe.preparePointer recipes (.ptr n b elem) elem
            (Uprobe.concatLeaves words) captures all k
        | .struct _ s _ fs => Uprobe.prepareStruct recipes v.type (structKind s fs)
            (Uprobe.concatLeaves words) captures all k
        | _ => (.dynamic "" v.type (Uprobe.concatLeaves words) 0 {}, k)) =
        (.dynamic lead ty data addr snap, k') := by
  unfold Uprobe.prepareLeaves at h
  extract_lets t ifaceNil objNil header at h
  split at h
  · cases h
  split at h
  · cases h
  split at h
  · cases h
  rename_i hobjNil
  split at h
  · cases h
  refine ⟨fun hptr obj rest hcaptures => ?_, h⟩
  subst hcaptures
  simpa [objNil, t, hptr] using hobjNil

end

end GoFtrace.Tracing
