import GoFtrace.Uprobe.Auto
import Mathlib.Data.List.ReduceOption

/-!
# The layout of a plan

What the planner emits, without its state: the leaves of a value are the leaves of its ABI
words, in the registers from a given one on, followed by its memory captures.

* `planValue_cases`: when a value is kept, and the leaves it gets.
* `planAll_keep`: the leaves of all kept values, one after the other.
-/

namespace GoFtrace.Uprobe

/-! ## Words and captures -/

/-- The ABI words of a struct class; a plain struct has those of its fields. -/
def StructKind.words : StructKind → Nat
  | .string => 2
  | .slice => 3
  | .iface _ => 2
  | .plain => 0

mutual

/-- The word leaves that `emitABI` emits. -/
def DType.leafWords : DType → Nat
  | .typedef _ t => t.leafWords
  | .qual _ t => t.leafWords
  | .struct _ s _ fs =>
    match structKind s fs with
    | .plain => fs.leafWords
    | kind => kind.words
  | _ => 1

def Fields.leafWords : Fields → Nat
  | .nil => 0
  | .cons _ _ t rest => t.leafWords + rest.leafWords

end

mutual

/-- The leaves of the words of a value whose first word is in register `w`. -/
def DType.wordSpecs (name : String) : DType → Nat → List ArgSpec
  | .typedef _ t, w => t.wordSpecs name w
  | .qual _ t, w => t.wordSpecs name w
  | .struct _ s _ fs, w =>
    match structKind s fs with
    | .string =>
      [scalarRegSpec (name ++ ".data") 8 "u64" abiRegs[w]?,
        scalarRegSpec (name ++ ".len") 8 "s64" abiRegs[w + 1]?]
    | .slice =>
      [scalarRegSpec (name ++ ".data") 8 "u64" abiRegs[w]?,
        scalarRegSpec (name ++ ".len") 8 "s64" abiRegs[w + 1]?,
        scalarRegSpec (name ++ ".cap") 8 "s64" abiRegs[w + 2]?]
    | .iface nonEmpty =>
      [ifaceTypeSpec nonEmpty name abiRegs[w]?,
        scalarRegSpec (name ++ ".data") 8 "u64" abiRegs[w + 1]?]
    | .plain => fs.wordSpecs name w
  | .ptr _ _ _, w => [scalarRegSpec name 8 "u64" abiRegs[w]?]
  | t, w =>
    match scalarValue t with
    | none => [scalarRegSpec name 8 "u64" abiRegs[w]?]
    | some (_, typ, size) => [scalarRegSpec name size typ abiRegs[w]?]

def Fields.wordSpecs (name : String) : Fields → Nat → List ArgSpec
  | .nil, _ => []
  | .cons n _ t rest, w =>
    t.wordSpecs (name ++ "." ++ n) w ++ rest.wordSpecs name (w + t.leafWords)

end

mutual

/-- The capture jobs that `emitABI` returns. -/
def DType.regJobs (name : String) : DType → Nat → List CaptureJob
  | .typedef _ t, w => t.regJobs name w
  | .qual _ t, w => t.regJobs name w
  | .struct _ s _ fs, w =>
    match structKind s fs with
    | .string => [{ name := name ++ ".str", kind := .string, loc := { reg := abiRegs[w]? } }]
    | .slice =>
      [{ name := name ++ ".arr", kind := .slice,
         loc := { reg := abiRegs[w]?, nilCheck := true } }]
    | .iface nonEmpty =>
      [{ name := name, kind := .iface nonEmpty,
         loc := { reg := abiRegs[w + 1]?, nilCheck := true } }]
    | .plain => fs.regJobs name w
  | _, _ => []

def Fields.regJobs (name : String) : Fields → Nat → List CaptureJob
  | .nil, _ => []
  | .cons n _ t rest, w =>
    t.regJobs (name ++ "." ++ n) w ++ rest.regJobs name (w + t.leafWords)

end

/-- The leaf of a capture job; no job is for a plain struct. -/
def CaptureJob.spec (job : CaptureJob) : ArgSpec :=
  match job.kind with
  | .iface _ => blobAt (job.name ++ ".value") job.loc
  | _ => blobAt job.name job.loc

mutual

/-- The captures of an object at a location. -/
def DType.memCaptures (name : String) : DType → MemLoc → List ArgSpec
  | .typedef _ t, loc => t.memCaptures name loc
  | .qual _ t, loc => t.memCaptures name loc
  | .struct _ s _ fs, loc =>
    match structKind s fs with
    | .string => [blobAt (name ++ ".str") (loc.deref 0)]
    | .slice => [blobAt (name ++ ".arr") (loc.deref 0)]
    | .iface nonEmpty =>
      (if nonEmpty then [locSpec (name ++ ".type") ((loc.deref 0).add 8) 8 "u64"] else []) ++
        [locSpec (name ++ ".data") (loc.add 8) 8 "u64", blobAt (name ++ ".value") (loc.deref 8)]
    | .plain => fs.memCaptures name loc
  | _, _ => []

def Fields.memCaptures (name : String) : Fields → MemLoc → List ArgSpec
  | .nil, _ => []
  | .cons n off t rest, loc =>
    t.memCaptures (name ++ "." ++ n) (loc.add off) ++ rest.memCaptures name loc

end

/-! ## Values -/

mutual

/-- What passes for an interface is not taken for a string or a slice. -/
def DType.regular : DType → Bool
  | .typedef _ t => t.regular
  | .qual _ t => t.regular
  | .ptr _ _ t => t.regular
  | .struct _ s _ fs =>
    (!isInterface s fs || structKind s fs == .iface (interfaceIsNonEmpty s fs)) && fs.regular
  | _ => true

def Fields.regular : Fields → Bool
  | .nil => true
  | .cons _ _ t rest => t.regular && rest.regular

end

/-- Whether `planValue` can plan a type at all. -/
def DType.plans (t : DType) : Bool :=
  match t.underlying with
  | .ptr _ _ _ => true
  | .struct _ s _ fs => structKind s fs != .plain || fs.abiWordCount 0 != 0
  | u => (scalarValue u).isSome

/-- The captures of a value whose first word is in register `w`. -/
def DType.captureSpecs (name : String) (t : DType) (w : Nat) : List ArgSpec :=
  match t.underlying.objectPointee with
  | some elem =>
    let loc : MemLoc := { reg := abiRegs[w]?, nilCheck := true }
    blobAt (name ++ ".obj") loc :: elem.memCaptures name loc
  | none => (t.regJobs name w).map CaptureJob.spec

/-- The leaves of a value. -/
def DType.layout (name : String) (t : DType) (w : Nat) : List ArgSpec :=
  t.wordSpecs name w ++ t.captureSpecs name w

/-- The number of captures. -/
def DType.captureCount (t : DType) : Nat :=
  match t.underlying.objectPointee with
  | some elem => 1 + elem.extraCaptures true
  | none => t.extraCaptures false

/-- The leaves that a type needs. -/
def DType.leafNeed (t : DType) : Nat := t.leafWords + t.captureCount

/-- The value that `planValue` returns. -/
def DType.value (name : String) (t : DType) : Value :=
  { name := name, type := t, wordCount := t.leafWords, captures := t.captureCount }

/-! ## Struct classes -/

theorem structKind_string {s : String} {fs : Fields} (h : structKind s fs = .string) :
    isString s = true := by
  unfold structKind at h
  split at h
  · assumption
  · split at h
    · cases h
    · split at h <;> cases h

theorem structKind_slice {s : String} {fs : Fields} (h : structKind s fs = .slice) :
    isString s = false ∧ isSlice s fs = true := by
  unfold structKind at h
  split at h
  · cases h
  · rename_i hs
    split at h
    · exact ⟨Bool.eq_false_iff.mpr hs, by assumption⟩
    · split at h <;> cases h

theorem structKind_iface {s : String} {fs : Fields} {nonEmpty : Bool}
    (h : structKind s fs = .iface nonEmpty) :
    isInterface s fs = true ∧ interfaceIsNonEmpty s fs = nonEmpty ∧ isString s = false ∧
      isSlice s fs = false := by
  unfold structKind at h
  split at h
  · cases h
  · rename_i hs
    split at h
    · cases h
    · rename_i hl
      split at h
      · rename_i hi
        injection h with h
        exact ⟨hi, h, Bool.eq_false_iff.mpr hs, Bool.eq_false_iff.mpr hl⟩
      · cases h

theorem structKind_plain {s : String} {fs : Fields} (h : structKind s fs = .plain) :
    isString s = false ∧ isSlice s fs = false ∧ isInterface s fs = false := by
  unfold structKind at h
  split at h
  · cases h
  · rename_i hs
    split at h
    · cases h
    · rename_i hl
      split at h
      · cases h
      · rename_i hi
        exact ⟨Bool.eq_false_iff.mpr hs, Bool.eq_false_iff.mpr hl, Bool.eq_false_iff.mpr hi⟩

/-- Whether the type is a struct that is rendered field by field. -/
def DType.isPlain (t : DType) : Bool :=
  match t.underlying with
  | .struct _ s _ fs => structKind s fs == .plain
  | _ => false

theorem isPlain_iff {t : DType} : t.isPlain = true ↔
    ∃ n s b fs, t.underlying = .struct n s b fs ∧ structKind s fs = .plain := by
  unfold DType.isPlain
  cases t.underlying with
  | struct n s b fs => simp
  | _ => simp

/-! ## Lengths -/

mutual

@[simp] theorem DType.wordSpecs_length (name : String) :
    ∀ (t : DType) (w : Nat), (t.wordSpecs name w).length = t.leafWords
  | .typedef _ t, w => DType.wordSpecs_length name t w
  | .qual _ t, w => DType.wordSpecs_length name t w
  | .struct _ s _ fs, w => by
    rw [DType.wordSpecs, DType.leafWords]
    cases structKind s fs with
    | plain => exact Fields.wordSpecs_length name fs w
    | _ => rfl
  | .ptr _ _ _, _ => rfl
  | .basic k _ _, _ => by cases k <;> rfl
  | .func _ _ _, _ => rfl
  | .other _ _ _, _ => rfl

@[simp] theorem Fields.wordSpecs_length (name : String) :
    ∀ (fs : Fields) (w : Nat), (fs.wordSpecs name w).length = fs.leafWords
  | .nil, _ => rfl
  | .cons n _ t rest, w => by
    rw [Fields.wordSpecs, List.length_append, DType.wordSpecs_length _ t,
      Fields.wordSpecs_length name rest, Fields.leafWords]

end

mutual

@[simp] theorem DType.regJobs_length (name : String) :
    ∀ (t : DType) (w : Nat), (t.regJobs name w).length = t.extraCaptures false
  | .typedef _ t, w => DType.regJobs_length name t w
  | .qual _ t, w => DType.regJobs_length name t w
  | .struct _ s _ fs, w => by
    rw [DType.regJobs, DType.extraCaptures]
    cases structKind s fs with
    | plain => exact Fields.regJobs_length name fs w
    | _ => rfl
  | .ptr _ _ _, _ => rfl
  | .basic _ _ _, _ => rfl
  | .func _ _ _, _ => rfl
  | .other _ _ _, _ => rfl

@[simp] theorem Fields.regJobs_length (name : String) :
    ∀ (fs : Fields) (w : Nat), (fs.regJobs name w).length = fs.extraCaptures false
  | .nil, _ => rfl
  | .cons n _ t rest, w => by
    rw [Fields.regJobs, List.length_append, DType.regJobs_length _ t,
      Fields.regJobs_length name rest, Fields.extraCaptures]

end

mutual

@[simp] theorem DType.memCaptures_length (name : String) :
    ∀ (t : DType) (loc : MemLoc), (t.memCaptures name loc).length = t.extraCaptures true
  | .typedef _ t, loc => DType.memCaptures_length name t loc
  | .qual _ t, loc => DType.memCaptures_length name t loc
  | .struct _ s _ fs, loc => by
    rw [DType.memCaptures, DType.extraCaptures]
    cases structKind s fs with
    | plain => exact Fields.memCaptures_length name fs loc
    | iface nonEmpty => cases nonEmpty <;> rfl
    | _ => rfl
  | .ptr _ _ _, _ => rfl
  | .basic _ _ _, _ => rfl
  | .func _ _ _, _ => rfl
  | .other _ _ _, _ => rfl

@[simp] theorem Fields.memCaptures_length (name : String) :
    ∀ (fs : Fields) (loc : MemLoc), (fs.memCaptures name loc).length = fs.extraCaptures true
  | .nil, _ => rfl
  | .cons n off t rest, loc => by
    rw [Fields.memCaptures, List.length_append, DType.memCaptures_length _ t,
      Fields.memCaptures_length name rest, Fields.extraCaptures]

end

@[simp] theorem DType.captureSpecs_length (name : String) (t : DType) (w : Nat) :
    (t.captureSpecs name w).length = t.captureCount := by
  unfold captureSpecs captureCount
  cases t.underlying.objectPointee with
  | some elem => simp [Nat.add_comm]
  | none => simp

@[simp] theorem DType.layout_length (name : String) (t : DType) (w : Nat) :
    (t.layout name w).length = t.leafNeed := by
  simp [layout, leafNeed]

@[simp] theorem DType.value_leafCount (name : String) (t : DType) :
    (t.value name).leafCount = t.leafNeed := rfl

mutual

/-- `abiWordCount` counts the words that `emitABI` emits. -/
theorem DType.abiWordCount_eq :
    ∀ t : DType, t.regular = true → t.abiWordCount ≠ 0 → t.abiWordCount = t.leafWords
  | .typedef _ t, hreg, h => DType.abiWordCount_eq t hreg h
  | .qual _ t, hreg, h => DType.abiWordCount_eq t hreg h
  | .struct _ s _ fs, hreg, h => by
    rw [DType.regular, Bool.and_eq_true] at hreg
    rw [DType.abiWordCount] at h ⊢
    rw [DType.leafWords]
    cases hkind : structKind s fs with
    | string => rw [structKind_string hkind]; rfl
    | slice =>
      obtain ⟨hs, hl⟩ := structKind_slice hkind
      have hi : isInterface s fs = false := by simpa [hkind] using hreg.1
      rw [hs, hl, hi]
      rfl
    | iface nonEmpty => rw [(structKind_iface hkind).1, Bool.or_true]; rfl
    | plain =>
      obtain ⟨hs, hl, hi⟩ := structKind_plain hkind
      simp only [hs, hl, hi, Bool.or_self, Bool.false_eq_true, if_false] at h ⊢
      rw [Fields.abiWordCount_eq fs 0 hreg.2 h, Nat.zero_add]
  | .ptr _ _ _, _, _ => rfl
  | .basic k _ _, _, _ => by cases k <;> rfl
  | .func _ _ _, _, h => absurd rfl h
  | .other _ _ _, _, h => absurd rfl h

theorem Fields.abiWordCount_eq :
    ∀ (fs : Fields) (n : Nat), fs.regular = true → fs.abiWordCount n ≠ 0 →
      fs.abiWordCount n = n + fs.leafWords
  | .nil, _, _, _ => rfl
  | .cons _ _ t rest, n, hreg, h => by
    rw [Fields.regular, Bool.and_eq_true] at hreg
    rw [Fields.abiWordCount] at h ⊢
    split at h
    · exact absurd rfl h
    · rename_i ht
      rw [if_neg ht, Fields.abiWordCount_eq rest _ hreg.2 h,
        DType.abiWordCount_eq t hreg.1 ht, Fields.leafWords, Nat.add_assoc]

end

/-! ## Emission -/

namespace FlatCtx

/-- The state after `n` words and some leaves. -/
def past (c : FlatCtx) (n : Nat) (specs : List ArgSpec) : FlatCtx :=
  { c with wi := c.wi + n, out := c.out ++ specs }

@[simp] theorem past_wi (c : FlatCtx) (n : Nat) (specs : List ArgSpec) :
    (c.past n specs).wi = c.wi + n := rfl

@[simp] theorem past_out (c : FlatCtx) (n : Nat) (specs : List ArgSpec) :
    (c.past n specs).out = c.out ++ specs := rfl

@[simp] theorem past_past (c : FlatCtx) (n m : Nat) (xs ys : List ArgSpec) :
    (c.past n xs).past m ys = c.past (n + m) (xs ++ ys) := by
  simp [past, Nat.add_assoc]

theorem past_zero_nil (c : FlatCtx) : c.past 0 [] = c := by
  simp [past]

theorem nextWord_eq {c : FlatCtx} (h : c.wi < abiRegs.length) :
    c.nextWord = (c.past 1 [], abiRegs[c.wi]?) := by
  rw [nextWord, List.getElem?_eq_getElem h, past, List.append_nil]

theorem nextWord_past {c : FlatCtx} {n : Nat} (h : c.wi + n < abiRegs.length)
    (specs : List ArgSpec) :
    (c.past n specs).nextWord = (c.past (n + 1) specs, abiRegs[c.wi + n]?) := by
  rw [nextWord_eq h, past_past, List.append_nil, past_wi]

@[simp] theorem emit_past (c : FlatCtx) (n : Nat) (specs : List ArgSpec) (s : ArgSpec) :
    (c.past n specs).emit s = c.past n (specs ++ [s]) := by
  simp [emit, past]

end FlatCtx

mutual

theorem DType.emitABI_eq (name : String) :
    ∀ (t : DType) (c : FlatCtx), c.wi + t.leafWords ≤ abiRegs.length →
      t.emitABI name c = (c.past t.leafWords (t.wordSpecs name c.wi), t.regJobs name c.wi)
  | .typedef _ t, c, h => DType.emitABI_eq name t c h
  | .qual _ t, c, h => DType.emitABI_eq name t c h
  | .struct _ s _ fs, c, h => by
    rw [DType.leafWords] at h
    rw [DType.emitABI, DType.leafWords, DType.wordSpecs, DType.regJobs]
    cases hkind : structKind s fs with
    | string =>
      simp only [hkind, StructKind.words] at h
      rw [FlatCtx.nextWord_eq (by omega)]
      dsimp only
      rw [FlatCtx.nextWord_past (by omega)]
      simp only [FlatCtx.emit_past]
      rfl
    | slice =>
      simp only [hkind, StructKind.words] at h
      rw [FlatCtx.nextWord_eq (by omega)]
      dsimp only
      rw [FlatCtx.nextWord_past (by omega)]
      dsimp only
      rw [FlatCtx.nextWord_past (by omega)]
      simp only [FlatCtx.emit_past]
      rfl
    | iface nonEmpty =>
      simp only [hkind, StructKind.words] at h
      rw [FlatCtx.nextWord_eq (by omega)]
      dsimp only
      rw [FlatCtx.nextWord_past (by omega)]
      simp only [FlatCtx.emit_past]
      rfl
    | plain =>
      rw [hkind] at h
      exact Fields.emitABI_eq name fs c h
  | .ptr _ _ _, c, h => by
    rw [DType.emitABI, FlatCtx.nextWord_eq h]
    simp only [FlatCtx.emit_past]
    rfl
  | .basic k n b, c, h => by
    have hnext := FlatCtx.nextWord_eq (c := c) h
    cases k <;> simp only [DType.emitABI, hnext, scalarValue, FlatCtx.emit_past] <;> rfl
  | .func _ _ _, c, h => by
    have hnext := FlatCtx.nextWord_eq (c := c) h
    simp only [DType.emitABI, hnext, scalarValue, FlatCtx.emit_past]
    rfl
  | .other _ _ _, c, h => by
    have hnext := FlatCtx.nextWord_eq (c := c) h
    simp only [DType.emitABI, hnext, scalarValue, FlatCtx.emit_past]
    rfl

theorem Fields.emitABI_eq (name : String) :
    ∀ (fs : Fields) (c : FlatCtx), c.wi + fs.leafWords ≤ abiRegs.length →
      fs.emitABI name c = (c.past fs.leafWords (fs.wordSpecs name c.wi), fs.regJobs name c.wi)
  | .nil, c, _ => by rw [Fields.emitABI, Fields.leafWords, Fields.wordSpecs, c.past_zero_nil]; rfl
  | .cons n _ t rest, c, h => by
    rw [Fields.leafWords] at h
    rw [Fields.emitABI, DType.emitABI_eq _ t c (by omega)]
    dsimp only
    rw [Fields.emitABI_eq name rest _ (by rw [FlatCtx.past_wi]; omega), FlatCtx.past_past,
      FlatCtx.past_wi]
    rfl

end

mutual

theorem DType.regJobs_kind (name : String) :
    ∀ (t : DType) (w : Nat), ∀ job ∈ t.regJobs name w, job.kind ≠ .plain
  | .typedef _ t, w => DType.regJobs_kind name t w
  | .qual _ t, w => DType.regJobs_kind name t w
  | .struct _ s _ fs, w => by
    rw [DType.regJobs]
    cases structKind s fs with
    | plain => exact Fields.regJobs_kind name fs w
    | _ => simp
  | .ptr _ _ _, _ => by simp [DType.regJobs]
  | .basic _ _ _, _ => by simp [DType.regJobs]
  | .func _ _ _, _ => by simp [DType.regJobs]
  | .other _ _ _, _ => by simp [DType.regJobs]

theorem Fields.regJobs_kind (name : String) :
    ∀ (fs : Fields) (w : Nat), ∀ job ∈ fs.regJobs name w, job.kind ≠ .plain
  | .nil, _ => by simp [Fields.regJobs]
  | .cons n _ t rest, w => by
    rw [Fields.regJobs]
    intro job hjob
    rcases List.mem_append.mp hjob with hjob | hjob
    · exact DType.regJobs_kind _ t w job hjob
    · exact Fields.regJobs_kind name rest _ job hjob

end

theorem emitRegCaptures_eq {job : CaptureJob} (h : job.kind ≠ .plain) (c : FlatCtx) :
    emitRegCaptures job c = c.past 0 [job.spec] := by
  unfold emitRegCaptures CaptureJob.spec
  cases hkind : job.kind with
  | plain => exact absurd hkind h
  | _ => rfl

theorem foldl_emitRegCaptures {jobs : List CaptureJob} (h : ∀ job ∈ jobs, job.kind ≠ .plain)
    (c : FlatCtx) :
    jobs.foldl (fun c job => emitRegCaptures job c) c
      = c.past 0 (jobs.map CaptureJob.spec) := by
  induction jobs generalizing c with
  | nil => exact c.past_zero_nil.symm
  | cons job jobs ih =>
    rw [List.foldl_cons, emitRegCaptures_eq (h job List.mem_cons_self),
      ih fun job hjob => h job (List.mem_cons_of_mem _ hjob), FlatCtx.past_past]
    rfl

mutual

theorem DType.emitMemCaptures_eq (name : String) :
    ∀ (t : DType) (loc : MemLoc) (c : FlatCtx),
      t.emitMemCaptures name loc c = c.past 0 (t.memCaptures name loc)
  | .typedef _ t, loc, c => DType.emitMemCaptures_eq name t loc c
  | .qual _ t, loc, c => DType.emitMemCaptures_eq name t loc c
  | .struct _ s _ fs, loc, c => by
    rw [DType.emitMemCaptures, DType.memCaptures]
    cases structKind s fs with
    | plain => exact Fields.emitMemCaptures_eq name fs loc c
    | iface nonEmpty =>
      rw [← c.past_zero_nil]
      cases nonEmpty <;> simp
    | _ => rfl
  | .ptr _ _ _, _, c => c.past_zero_nil.symm
  | .basic _ _ _, _, c => c.past_zero_nil.symm
  | .func _ _ _, _, c => c.past_zero_nil.symm
  | .other _ _ _, _, c => c.past_zero_nil.symm

theorem Fields.emitMemCaptures_eq (name : String) :
    ∀ (fs : Fields) (loc : MemLoc) (c : FlatCtx),
      fs.emitMemCaptures name loc c = c.past 0 (fs.memCaptures name loc)
  | .nil, _, c => c.past_zero_nil.symm
  | .cons n off t rest, loc, c => by
    rw [Fields.emitMemCaptures, DType.emitMemCaptures_eq _ t, Fields.emitMemCaptures_eq name rest,
      FlatCtx.past_past]
    rfl

end

/-! ## Planning a value -/

namespace DType

/-- Where a walk over types looks through names. -/
theorem of_underlying {α : Type} (f : DType → α)
    (htypedef : ∀ n t, f (.typedef n t) = f t) (hqual : ∀ q t, f (.qual q t) = f t) :
    ∀ t : DType, f t.underlying = f t
  | .typedef n t => by rw [htypedef, underlying, of_underlying f htypedef hqual t]
  | .qual q t => by rw [hqual, underlying, of_underlying f htypedef hqual t]
  | .ptr _ _ _ => rfl
  | .struct _ _ _ _ => rfl
  | .basic _ _ _ => rfl
  | .func _ _ _ => rfl
  | .other _ _ _ => rfl

theorem underlying_leafWords (t : DType) : t.underlying.leafWords = t.leafWords :=
  of_underlying leafWords (fun _ _ => rfl) (fun _ _ => rfl) t

theorem underlying_wordSpecs (name : String) (t : DType) :
    t.underlying.wordSpecs name = t.wordSpecs name :=
  of_underlying (wordSpecs name) (fun _ _ => rfl) (fun _ _ => rfl) t

theorem underlying_regJobs (name : String) (t : DType) :
    t.underlying.regJobs name = t.regJobs name :=
  of_underlying (regJobs name) (fun _ _ => rfl) (fun _ _ => rfl) t

theorem underlying_extraCaptures (inMemory : Bool) (t : DType) :
    t.underlying.extraCaptures inMemory = t.extraCaptures inMemory :=
  of_underlying (extraCaptures inMemory) (fun _ _ => rfl) (fun _ _ => rfl) t

theorem underlying_regular (t : DType) : t.underlying.regular = t.regular :=
  of_underlying regular (fun _ _ => rfl) (fun _ _ => rfl) t

end DType

theorem DType.underlying_ne_typedef : ∀ (t : DType) (n : String) (u : DType),
    t.underlying ≠ .typedef n u
  | .typedef _ t, n, u => underlying_ne_typedef t n u
  | .qual _ t, n, u => underlying_ne_typedef t n u
  | .ptr _ _ _, _, _ => by simp [underlying]
  | .struct _ _ _ _, _, _ => by simp [underlying]
  | .basic _ _ _, _, _ => by simp [underlying]
  | .func _ _ _, _, _ => by simp [underlying]
  | .other _ _ _, _, _ => by simp [underlying]

theorem DType.underlying_ne_qual : ∀ (t : DType) (q : String) (u : DType),
    t.underlying ≠ .qual q u
  | .typedef _ t, q, u => underlying_ne_qual t q u
  | .qual _ t, q, u => underlying_ne_qual t q u
  | .ptr _ _ _, _, _ => by simp [underlying]
  | .struct _ _ _ _, _, _ => by simp [underlying]
  | .basic _ _ _, _, _ => by simp [underlying]
  | .func _ _ _, _, _ => by simp [underlying]
  | .other _ _ _, _, _ => by simp [underlying]

/-- What `planValue` does with a type in a state. -/
inductive PlanStep (t : DType) (name : String) (c : FlatCtx) : FlatCtx × Option Value → Prop
  | kept (hplans : t.plans = true) (hfit : c.out.length + t.leafNeed ≤ maxFetchArgs) :
      PlanStep t name c (c.past t.leafWords (t.layout name c.wi), some (t.value name))
  | skipped (hno : t.plans = true → maxFetchArgs < c.out.length + t.leafNeed)
      (broken : Bool) : PlanStep t name c ({ c with broken := broken }, none)

theorem reserve_of_le {c : FlatCtx} {n : Nat} (h : c.out.length + n ≤ maxFetchArgs) :
    c.reserve n = (c, true) := if_pos h

theorem reserve_of_lt {c : FlatCtx} {n : Nat} (h : maxFetchArgs < c.out.length + n) :
    c.reserve n = ({ c with broken := true }, false) := if_neg (by omega)

/-- A value with one word and no capture. -/
theorem planStep_word {t : DType} {name : String} {c : FlatCtx} {spec : ArgSpec}
    (hplans : t.plans = true) (hlayout : t.layout name c.wi = [spec]) (hwords : t.leafWords = 1)
    (hcaptures : t.captureCount = 0) (hfull : c.out.length < maxFetchArgs) :
    PlanStep t name c ((c.past 1 []).emit spec,
      some { name := name, type := t, wordCount := 1, captures := 0 }) := by
  have hneed : t.leafNeed = 1 := by rw [DType.leafNeed, hwords, hcaptures]
  have hkept : PlanStep t name c _ := .kept hplans (by omega)
  rw [hlayout, DType.value, hwords, hcaptures] at hkept
  rw [FlatCtx.emit_past]
  exact hkept

theorem DType.underlying_underlying (t : DType) : t.underlying.underlying = t.underlying :=
  of_underlying underlying (fun _ _ => rfl) (fun _ _ => rfl) t

/-- A type is planned as its underlying type is. -/
theorem DType.plans_of_underlying {t u : DType} (hu : t.underlying = u) : t.plans = u.plans := by
  subst hu
  unfold plans
  rw [underlying_underlying]

/-- The pointer cases. -/
theorem planValue_pointer {t : DType} {n : String} {b : Int} {elem : DType} (name : String)
    {c : FlatCtx} (hu : t.underlying = .ptr n b elem) (hwi : c.wi ≤ c.out.length)
    (hfull : c.out.length < maxFetchArgs) : PlanStep t name c (planValue t name c) := by
  have hplans : t.plans = true := by rw [DType.plans_of_underlying hu]; rfl
  have hwords : t.leafWords = 1 := by rw [← DType.underlying_leafWords, hu]; rfl
  have hspecs : t.wordSpecs name c.wi = [scalarRegSpec name 8 "u64" abiRegs[c.wi]?] := by
    rw [← DType.underlying_wordSpecs, hu]; rfl
  have hroom : c.wi < abiRegs.length := by
    have hlen : maxFetchArgs < abiRegs.length := by decide
    omega
  have hreg : abiRegs[c.wi]?.isNone = false := by simp [hroom]
  rw [planValue, hu]
  dsimp only
  cases hobj : (DType.ptr n b elem).objectPointee with
  | none =>
    have hlayout : t.layout name c.wi = [scalarRegSpec name 8 "u64" abiRegs[c.wi]?] := by
      rw [DType.layout, DType.captureSpecs, hu, hobj, hspecs, ← DType.underlying_regJobs, hu]
      rfl
    have hcaptures : t.captureCount = 0 := by
      rw [DType.captureCount, hu, hobj, ← DType.underlying_extraCaptures, hu]
      rfl
    dsimp only
    rw [FlatCtx.nextWord_eq hroom]
    dsimp only
    rw [hreg]
    exact planStep_word hplans hlayout hwords hcaptures hfull
  | some e =>
    have hcaptures : t.captureCount = 1 + e.extraCaptures true := by
      rw [DType.captureCount, hu, hobj]
    have hneed : t.leafNeed = 2 + e.extraCaptures true := by
      rw [DType.leafNeed, hwords, hcaptures]; omega
    dsimp only
    by_cases hfit : c.out.length + (2 + e.extraCaptures true) ≤ maxFetchArgs
    · rw [reserve_of_le hfit]
      dsimp only [Bool.not_true]
      rw [FlatCtx.nextWord_eq hroom]
      dsimp only
      rw [hreg, FlatCtx.emit_past, FlatCtx.emit_past, DType.emitMemCaptures_eq, FlatCtx.past_past]
      have hkept : PlanStep t name c _ := .kept hplans (by omega)
      rw [DType.layout, DType.captureSpecs, hu, hobj, hspecs, DType.value, hwords,
        hcaptures] at hkept
      exact hkept
    · rw [reserve_of_lt (by omega)]
      exact .skipped (fun _ => by omega) true

/-- The cases of strings, slices and interfaces. -/
theorem planValue_header {t : DType} {n s : String} {b : Int} {fs : Fields} (name : String)
    {c : FlatCtx} (hu : t.underlying = .struct n s b fs) (hkind : structKind s fs ≠ .plain)
    (hwi : c.wi ≤ c.out.length) : PlanStep t name c (planValue t name c) := by
  have hplans : t.plans = true := by
    rw [DType.plans_of_underlying hu]
    simp [DType.plans, hkind]
  have hlen : maxFetchArgs < abiRegs.length := by decide
  have hwords : t.leafWords = (structKind s fs).words := by
    rw [← DType.underlying_leafWords, hu, DType.leafWords]
    split
    · contradiction
    · rfl
  have hcaptures : t.captureCount = 1 := by
    rw [DType.captureCount, hu, ← DType.underlying_extraCaptures, hu]
    change DType.extraCaptures false (.struct n s b fs) = 1
    rw [DType.extraCaptures]
    split <;> first | rfl | contradiction
  have hkept := fun hfit => (PlanStep.kept hplans hfit : PlanStep t name c _)
  have hskipped : maxFetchArgs < c.out.length + t.leafNeed → PlanStep t name c
      ({ c with broken := true }, none) := fun h => .skipped (fun _ => h) true
  rw [DType.layout, DType.captureSpecs, hu, DType.value, DType.leafNeed, hwords,
    hcaptures, ← DType.underlying_wordSpecs, hu, ← DType.underlying_regJobs, hu] at hkept
  rw [DType.leafNeed, hwords, hcaptures] at hskipped
  rw [planValue, hu]
  dsimp only
  simp only [DType.wordSpecs, DType.regJobs, DType.objectPointee] at hkept
  cases hk : structKind s fs with
  | plain => exact absurd hk hkind
  | string =>
    rw [hk] at hkept hskipped
    dsimp only
    by_cases hfit : c.out.length + 3 ≤ maxFetchArgs
    · rw [reserve_of_le hfit]
      dsimp only [Bool.not_true]
      rw [FlatCtx.nextWord_eq (by omega)]
      dsimp only
      rw [FlatCtx.nextWord_past (by omega)]
      simp only [FlatCtx.emit_past]
      have h0 : abiRegs[c.wi]?.isNone = false := by simp; omega
      have h1 : abiRegs[c.wi + 1]?.isNone = false := by simp; omega
      rw [h0, h1]
      exact hkept hfit
    · rw [reserve_of_lt (by omega)]
      exact hskipped (by simp only [StructKind.words]; omega)
  | slice =>
    rw [hk] at hkept hskipped
    dsimp only
    by_cases hfit : c.out.length + 4 ≤ maxFetchArgs
    · rw [reserve_of_le hfit]
      dsimp only [Bool.not_true]
      rw [FlatCtx.nextWord_eq (by omega)]
      dsimp only
      rw [FlatCtx.nextWord_past (by omega)]
      dsimp only
      rw [FlatCtx.nextWord_past (by omega)]
      simp only [FlatCtx.emit_past]
      have h0 : abiRegs[c.wi]?.isNone = false := by simp; omega
      have h1 : abiRegs[c.wi + 1]?.isNone = false := by simp; omega
      have h2 : abiRegs[c.wi + 2]?.isNone = false := by simp; omega
      rw [h0, h1, h2]
      exact hkept hfit
    · rw [reserve_of_lt (by omega)]
      exact hskipped (by simp only [StructKind.words]; omega)
  | iface nonEmpty =>
    rw [hk] at hkept hskipped
    dsimp only
    by_cases hfit : c.out.length + 3 ≤ maxFetchArgs
    · rw [reserve_of_le hfit]
      dsimp only [Bool.not_true]
      rw [FlatCtx.nextWord_eq (by omega)]
      dsimp only
      rw [FlatCtx.nextWord_past (by omega)]
      simp only [FlatCtx.emit_past]
      have h0 : abiRegs[c.wi]?.isNone = false := by simp; omega
      have h1 : abiRegs[c.wi + 1]?.isNone = false := by simp; omega
      rw [h0, h1]
      exact hkept hfit
    · rw [reserve_of_lt (by omega)]
      exact hskipped (by simp only [StructKind.words]; omega)

/-- The case of a plain struct. -/
theorem planValue_struct {t : DType} {n s : String} {b : Int} {fs : Fields} (name : String)
    {c : FlatCtx} (hu : t.underlying = .struct n s b fs) (hkind : structKind s fs = .plain)
    (hregular : t.regular = true) (hwi : c.wi ≤ c.out.length) :
    PlanStep t name c (planValue t name c) := by
  have hlen : maxFetchArgs < abiRegs.length := by decide
  have hcount : (DType.struct n s b fs).abiWordCount = fs.abiWordCount 0 := by
    obtain ⟨hs, hl, hi⟩ := structKind_plain hkind
    simp [DType.abiWordCount, hs, hl, hi]
  have hplans : t.plans = (fs.abiWordCount 0 != 0) := by
    rw [DType.plans_of_underlying hu]
    simp [DType.plans, hkind]
  rw [planValue, hu]
  dsimp only
  rw [hkind]
  dsimp only
  by_cases hwords : (DType.struct n s b fs).abiWordCount = 0
  · rw [if_pos hwords]
    refine .skipped (fun h => ?_) c.broken
    rw [hplans, ← hcount, hwords] at h
    cases h
  · rw [if_neg hwords]
    have heq := DType.abiWordCount_eq _ (by rw [← hu, DType.underlying_regular]; exact hregular)
      hwords
    have hleaf : t.leafWords = (DType.struct n s b fs).abiWordCount := by
      rw [heq, ← hu, DType.underlying_leafWords]
    have hcaptures : t.captureCount = (DType.struct n s b fs).extraCaptures false := by
      rw [DType.captureCount, hu, ← hu, DType.underlying_extraCaptures, hu]
      rfl
    by_cases hfit : c.out.length + ((DType.struct n s b fs).abiWordCount +
        (DType.struct n s b fs).extraCaptures false) ≤ maxFetchArgs
    · rw [reserve_of_le hfit]
      dsimp only [Bool.not_true]
      rw [DType.emitABI_eq _ _ _ (by omega)]
      dsimp only
      rw [foldl_emitRegCaptures (DType.regJobs_kind _ _ _), FlatCtx.past_past]
      have hkept : PlanStep t name c _ := .kept
        (by rw [hplans, ← hcount]; simpa using hwords) (by rw [DType.leafNeed]; omega)
      rw [DType.layout, DType.captureSpecs, hu, DType.value, hcaptures,
        ← DType.underlying_wordSpecs, ← DType.underlying_regJobs, hu, hleaf] at hkept
      rw [← heq]
      exact hkept
    · rw [reserve_of_lt (by omega)]
      exact .skipped (fun _ => by rw [DType.leafNeed]; omega) true

theorem planValue_cases {t : DType} (name : String) {c : FlatCtx} (hregular : t.regular = true)
    (hwi : c.wi ≤ c.out.length) (hfull : c.out.length < maxFetchArgs) :
    PlanStep t name c (planValue t name c) := by
  have hlen : maxFetchArgs < abiRegs.length := by decide
  cases hu : t.underlying with
  | ptr n b elem => exact planValue_pointer name hu hwi hfull
  | struct n s b fs =>
    by_cases hkind : structKind s fs = .plain
    · exact planValue_struct name hu hkind hregular hwi
    · exact planValue_header name hu hkind hwi
  | basic k n b =>
    have hroom : c.wi < abiRegs.length := by omega
    have hreg : abiRegs[c.wi]?.isNone = false := by simp [hroom]
    have hplans : t.plans = true := by
      rw [DType.plans_of_underlying hu]
      cases k <;> rfl
    have hwords : t.leafWords = 1 := by rw [← DType.underlying_leafWords, hu]; rfl
    have hcaptures : t.captureCount = 0 := by
      rw [DType.captureCount, hu, ← DType.underlying_extraCaptures, hu]
      rfl
    have hlayout : t.layout name c.wi = (DType.basic k n b).wordSpecs name c.wi := by
      rw [DType.layout, DType.captureSpecs, hu, ← DType.underlying_wordSpecs,
        ← DType.underlying_regJobs, hu]
      exact List.append_nil _
    rw [planValue, hu]
    dsimp only
    cases k <;>
    · simp only [scalarValue, FlatCtx.nextWord_eq hroom, hreg]
      exact planStep_word hplans hlayout hwords hcaptures hfull
  | func n x b =>
    rw [planValue, hu]
    refine .skipped (fun h => ?_) c.broken
    rw [DType.plans_of_underlying hu] at h
    cases h
  | other n x b =>
    rw [planValue, hu]
    refine .skipped (fun h => ?_) c.broken
    rw [DType.plans_of_underlying hu] at h
    cases h
  | typedef n u => exact absurd hu (DType.underlying_ne_typedef t n u)
  | qual q u => exact absurd hu (DType.underlying_ne_qual t q u)

/-! ## Planning a list -/

/-- What `planValue` made of one variable: the value and the leaves it emitted. -/
structure Planned where
  value : Value
  emitted : List ArgSpec

/-- The loop of `deriveArgs` and `deriveRets`, with what became of each variable. -/
def planEach (rename : String → String) : List Variable → FlatCtx → List (Option Planned)
  | [], _ => []
  | v :: vars, c =>
    if c.full then none :: vars.map fun _ => none
    else
      let (c', node) := planValue v.type (rename v.name) c
      node.map (fun value => { value := value, emitted := c'.out.drop c.out.length }) ::
        planEach rename vars c'

/-- Whether a value is kept when `used` leaves are taken. -/
def DType.keeps (used : Nat) (t : DType) : Bool :=
  t.plans && decide (used + t.leafNeed ≤ maxFetchArgs)

/-- A kept value, with the register of its first word. -/
structure Kept where
  name : String
  type : DType
  word : Nat

namespace Kept

def value (k : Kept) : Value := k.type.value k.name

def layout (k : Kept) : List ArgSpec := k.type.layout k.name k.word

def planned (k : Kept) : Planned := { value := k.value, emitted := k.layout }

end Kept

/-- The values that are kept, variable by variable. -/
def keep (rename : String → String) : List Variable → Nat → Nat → List (Option Kept)
  | [], _, _ => []
  | v :: vars, word, used =>
    if v.type.keeps used then
      some { name := rename v.name, type := v.type, word := word } ::
        keep rename vars (word + v.type.leafWords) (used + v.type.leafNeed)
    else none :: keep rename vars word used

theorem DType.leafWords_pos {t : DType} (hregular : t.regular = true) (hplans : t.plans = true) :
    0 < t.leafWords := by
  rw [← t.underlying_leafWords]
  rw [← t.underlying_regular] at hregular
  unfold plans at hplans
  cases hu : t.underlying with
  | struct n s b fs =>
    rw [hu] at hplans hregular
    cases hkind : structKind s fs with
    | plain =>
      obtain ⟨hs, hl, hi⟩ := structKind_plain hkind
      have hcount : (DType.struct n s b fs).abiWordCount = fs.abiWordCount 0 := by
        simp [DType.abiWordCount, hs, hl, hi]
      have hne : (DType.struct n s b fs).abiWordCount ≠ 0 := by
        rw [hcount]
        simpa [hkind] using hplans
      rw [← DType.abiWordCount_eq _ hregular hne]
      exact Nat.pos_of_ne_zero hne
    | string => simp [leafWords, hkind, StructKind.words]
    | slice => simp [leafWords, hkind, StructKind.words]
    | iface nonEmpty => simp [leafWords, hkind, StructKind.words]
  | ptr _ _ _ => exact Nat.one_pos
  | basic _ _ _ => exact Nat.one_pos
  | func _ _ _ => exact Nat.one_pos
  | other _ _ _ => exact Nat.one_pos
  | typedef n u => exact absurd hu (t.underlying_ne_typedef n u)
  | qual q u => exact absurd hu (t.underlying_ne_qual q u)

theorem DType.leafNeed_pos {t : DType} (hregular : t.regular = true) (hplans : t.plans = true) :
    0 < t.leafNeed :=
  Nat.lt_of_lt_of_le (leafWords_pos hregular hplans) (Nat.le_add_right _ _)

section
variable {rename : String → String} {vars : List Variable}

theorem keep_full (hregular : ∀ v ∈ vars, v.type.regular = true) (word : Nat) {used : Nat}
    (hfull : maxFetchArgs ≤ used) : keep rename vars word used = vars.map fun _ => none := by
  induction vars with
  | nil => rfl
  | cons v vars ih =>
    have hno : v.type.keeps used = false := by
      rw [DType.keeps, Bool.and_eq_false_imp]
      intro hplans
      have hpos := DType.leafNeed_pos (hregular v List.mem_cons_self) hplans
      exact decide_eq_false (by omega)
    rw [keep, hno, if_neg Bool.false_ne_true,
      ih fun v hv => hregular v (List.mem_cons_of_mem _ hv)]
    rfl

/-- The state and the values after the loop. -/
theorem planAll_keep (rename : String → String) (hregular : ∀ v ∈ vars, v.type.regular = true)
    {c : FlatCtx}
    (hwi : c.wi ≤ c.out.length) :
    let kept := (keep rename vars c.wi c.out.length).reduceOption
    (planAll rename vars c).1.out = c.out ++ kept.flatMap Kept.layout ∧
      (planAll rename vars c).2 = kept.map Kept.value ∧
      planEach rename vars c =
        (keep rename vars c.wi c.out.length).map (Option.map Kept.planned) := by
  induction vars generalizing c with
  | nil => exact ⟨(List.append_nil _).symm, rfl, rfl⟩
  | cons v vars ih =>
    have hv := hregular v List.mem_cons_self
    have hvars : ∀ v ∈ vars, v.type.regular = true := fun v hv =>
      hregular v (List.mem_cons_of_mem _ hv)
    by_cases hfull : c.full = true
    · have hlen : maxFetchArgs ≤ c.out.length := of_decide_eq_true hfull
      rw [keep_full hregular c.wi hlen, planAll, planEach, if_pos hfull, if_pos hfull]
      have hnil : ((v :: vars).map fun _ => (none : Option Kept)).reduceOption = [] := by
        simp [List.reduceOption, List.filterMap_map]
      rw [hnil]
      exact ⟨(List.append_nil _).symm, rfl, by simp⟩
    · have hroom : c.out.length < maxFetchArgs := by
        simpa [FlatCtx.full] using hfull
      have hcase := planValue_cases (rename v.name) hv hwi hroom
      rw [planAll, planEach, if_neg hfull, if_neg hfull]
      generalize planValue v.type (rename v.name) c = result at hcase ⊢
      cases hcase with
      | kept hplans hfit =>
        have hkeeps : v.type.keeps c.out.length = true := by simp [DType.keeps, hplans, hfit]
        have hle : v.type.leafWords ≤ v.type.leafNeed := Nat.le_add_right _ _
        have hnext : (c.past v.type.leafWords (v.type.layout (rename v.name) c.wi)).wi ≤
            (c.past v.type.leafWords (v.type.layout (rename v.name) c.wi)).out.length := by
          simp only [FlatCtx.past_wi, FlatCtx.past_out, List.length_append, DType.layout_length]
          omega
        obtain ⟨hout, hvalues, heach⟩ := ih hvars hnext
        simp only [FlatCtx.past_wi, FlatCtx.past_out, List.length_append,
          DType.layout_length] at hout hvalues heach
        rw [keep, hkeeps, if_pos rfl]
        dsimp only [FlatCtx.past_out] at hout hvalues heach ⊢
        rw [hout, hvalues, heach, List.reduceOption_cons_of_some]
        refine ⟨?_, rfl, ?_⟩
        · rw [List.flatMap_cons, ← List.append_assoc]
          rfl
        · rw [List.drop_left]
          rfl
      | skipped hno broken =>
        have hkeeps : v.type.keeps c.out.length = false := by
          rw [DType.keeps, Bool.and_eq_false_imp]
          exact fun h => decide_eq_false (by have hlt := hno h; omega)
        obtain ⟨hout, hvalues, heach⟩ := ih (c := { c with broken := broken }) hvars hwi
        rw [keep, hkeeps, if_neg Bool.false_ne_true, List.reduceOption_cons_of_none]
        dsimp only at hout hvalues heach ⊢
        rw [hout, hvalues, heach]
        exact ⟨rfl, rfl, rfl⟩

/-- A kept value has the type of its variable. -/
theorem keep_type (rename : String → String) {word used : Nat} :
    ∀ k ∈ (keep rename vars word used).reduceOption, ∃ v ∈ vars, v.type = k.type := by
  induction vars generalizing word used with
  | nil => exact nofun
  | cons v vars ih =>
    have hrest : ∀ {word used : Nat}, ∀ k ∈ (keep rename vars word used).reduceOption,
        ∃ v' ∈ v :: vars, v'.type = k.type := fun k hk => by
      obtain ⟨v', hv', htype⟩ := ih k hk
      exact ⟨v', List.mem_cons_of_mem _ hv', htype⟩
    rw [keep]
    split
    · rw [List.reduceOption_cons_of_some]
      exact List.forall_mem_cons.mpr ⟨⟨v, List.mem_cons_self, rfl⟩, hrest⟩
    · rw [List.reduceOption_cons_of_none]
      exact hrest

/-- The registers and leaves of the kept values are within the limits. -/
theorem keep_bounds (rename : String → String)
    (hregular : ∀ v ∈ vars, v.type.regular = true) {word used : Nat} (hword : word ≤ used) :
    (∀ k ∈ (keep rename vars word used).reduceOption,
        k.word + k.type.leafWords ≤ maxFetchArgs ∧ 0 < k.type.leafWords) ∧
      (used ≤ maxFetchArgs →
        used + ((keep rename vars word used).reduceOption.flatMap
          Kept.layout).length ≤ maxFetchArgs) := by
  induction vars generalizing word used with
  | nil => exact ⟨by simp [keep], by simp [keep]⟩
  | cons v vars ih =>
    have hvars : ∀ v ∈ vars, v.type.regular = true := fun v hv =>
      hregular v (List.mem_cons_of_mem _ hv)
    rw [keep]
    split
    · rename_i hkeeps
      obtain ⟨hplans, hfit⟩ : v.type.plans = true ∧
          used + v.type.leafNeed ≤ maxFetchArgs := by
        simpa [DType.keeps] using hkeeps
      have hneed : v.type.leafNeed = v.type.leafWords + v.type.captureCount := rfl
      obtain ⟨hall, hlen⟩ := @ih hvars (word + v.type.leafWords)
        (used + v.type.leafNeed) (by omega)
      rw [List.reduceOption_cons_of_some]
      constructor
      · intro k hk
        rcases List.mem_cons.mp hk with rfl | hk
        · have hpos := DType.leafWords_pos (hregular v List.mem_cons_self) hplans
          dsimp only
          omega
        · exact hall k hk
      · intro _
        rw [List.flatMap_cons, List.length_append, Kept.layout, DType.layout_length]
        have h := hlen hfit
        dsimp only
        omega
    · rw [List.reduceOption_cons_of_none]
      exact ih hvars hword

theorem derive_fst (hregular : ∀ v ∈ vars, v.type.regular = true) :
    (derive rename vars).1 = markIfaceSlots
      (((keep rename vars 0 0).reduceOption.flatMap Kept.layout).map
        ArgSpec.fetchArg) := by
  obtain ⟨hout, -⟩ := planAll_keep rename hregular (c := {}) (Nat.le_refl _)
  change markIfaceSlots ((planAll rename vars {}).1.out.map ArgSpec.fetchArg) = _
  rw [hout]
  rfl

theorem derive_length (hregular : ∀ v ∈ vars, v.type.regular = true) :
    (derive rename vars).1.length ≤ maxFetchArgs := by
  have h := (keep_bounds rename hregular (Nat.le_refl 0)).2 (Nat.zero_le _)
  rw [derive_fst hregular, markIfaceSlots, List.length_map, List.length_map]
  omega

end

end GoFtrace.Uprobe
