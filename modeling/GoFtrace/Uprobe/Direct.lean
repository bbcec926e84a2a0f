import GoFtrace.Uprobe.Home

/-!
# Payloads of interfaces

Go keeps a pointer-shaped value in the data word of an interface and the address of any
other value; `typeIsDirect` tells the two apart from the DWARF type. What the renderer and
the recipe compiler make of a data word is compared with the value that the interface holds.

* `interprets_iff`: the types whose payloads are interpreted by the representation of Go.
-/

namespace GoFtrace.Uprobe

open Lib (Memory wordBytes word)

/-! ## The classes of `typeIsDirect` -/

def DType.isFunc : DType → Bool
  | .func _ _ _ => true
  | _ => false

/-- Whether the first field is a pointer. -/
def Fields.startsWithPtr : Fields → Bool
  | .nil => false
  | .cons _ _ t _ => t.underlying.isPtr

/-- The structs that `typeIsDirect` takes for pointers. -/
def DirectStruct (structName : String) (size : Int) (fs : Fields) : Prop :=
  structKind structName fs = .plain ∧
    (isRuntimeStruct structName = true ∨ (size = 8 ∧ fs.startsWithPtr = true) ∨
      (0 < size ∧ size ≤ 8 ∧ fs.names = []))

theorem structKind_eq_plain {s : String} {fs : Fields} :
    structKind s fs = .plain ↔ (isString s || isSlice s fs || isInterface s fs) = false := by
  constructor
  · intro h
    obtain ⟨hs, hl, hi⟩ := structKind_plain h
    rw [hs, hl, hi]
    rfl
  · intro h
    rw [Bool.or_eq_false_iff, Bool.or_eq_false_iff] at h
    obtain ⟨⟨hs, hl⟩, hi⟩ := h
    simp [structKind, hs, hl, hi]

theorem typeIsDirect_struct {t : DType} {n s : String} {size : Int} {fs : Fields}
    (hu : t.underlying = .struct n s size fs) :
    typeIsDirect t = true ↔ DirectStruct s size fs := by
  unfold DirectStruct typeIsDirect
  simp only [hu, structKind_eq_plain]
  cases hheader : (isString s || isSlice s fs || isInterface s fs) with
  | true => simp
  | false =>
    cases hruntime : isRuntimeStruct s with
    | true => simp
    | false =>
      cases fs with
      | nil =>
        simp [Fields.startsWithPtr, Fields.names]
      | cons n off ft rest =>
        cases hft : ft.underlying with
        | ptr n' b elem =>
          simp [Fields.startsWithPtr, Fields.names, DType.isPtr, hft]
          omega
        | _ => simp [Fields.startsWithPtr, Fields.names, DType.isPtr, hft]

theorem typeIsDirect_other {t : DType} (hptr : t.underlying.isPtr = false)
    (hstruct : t.underlying.isStruct = false) (hfunc : t.underlying.isFunc = false) :
    typeIsDirect t = true ↔ 0 < t.size ∧ t.size ≤ 8 := by
  rw [← t.size_underlying]
  unfold typeIsDirect
  cases hu : t.underlying with
  | ptr n b elem => rw [hu] at hptr; cases hptr
  | struct n s b fs => rw [hu] at hstruct; cases hstruct
  | func n s b => rw [hu] at hfunc; cases hfunc
  | _ => simp

/-! ## Payloads -/

/-- The target's memory, where it can be read. -/
def memoryReader (m : Memory) (readable : UInt64 → Nat → Bool) : MemoryReader := fun a n =>
  if readable a n then some (m.slice a n) else none

/-- The bytes of the value of an interface with the data word `w`. -/
def payload (m : Memory) (readable : UInt64 → Nat → Bool) (t : DType) (w : UInt64) :
    Option (List UInt8) :=
  if pointerShaped t then some (wordBytes w)
  else if 0 < t.size ∧ t.size ≤ maxReadSize ∧ w ≠ 0 ∧ readable w t.size.toNat = true then
    some (m.slice w t.size.toNat)
  else none

/-- Its address. A value in the data word has none. -/
def payloadAddr (t : DType) (w : UInt64) : UInt64 := if pointerShaped t then 0 else w

/-- The text of an interface that shows its value. -/
def payloadText (env : RenderEnv) (m : Memory) (readable : UInt64 → Nat → Bool) (fuel : Nat)
    (t : DType) (w : UInt64) : String :=
  if t.underlying.isPtr ∧ w = 0 then "(" ++ t.typeName ++ ")(nil)"
  else
    match payload m readable t w with
    | none => t.typeName ++ "(<unavailable>)"
    | some bytes =>
      renderDynamicValue env (memoryReader m readable) fuel t bytes (payloadAddr t w)

/-- The type of what lies at a data word, if anything. -/
def pointedType (t : DType) : Option DType :=
  match t.underlying with
  | .ptr _ _ elem => some elem
  | u => if pointerShaped u then none else some u

/-- An interface of this dynamic type is interpreted by the representation of Go. -/
structure Interprets (t : DType) : Prop where
  /-- `typeIsDirect` says whether Go keeps the value in the data word. -/
  direct : typeIsDirect t = pointerShaped t
  /-- The renderer is given the value, and an address only of a value that has one. -/
  given : ∀ env m readable nonEmpty data,
    resolveDynamic env nonEmpty (word data) (memoryReader m readable) = some t →
    ∀ c ∈ interfaceCalls env nonEmpty data (memoryReader m readable),
      payload m readable t c.addr = some c.data ∧
        (t.underlying.isStruct = true → payloadAddr t c.addr = c.addr)
  /-- The text shows the value. -/
  shows : ∀ env m readable fuel nonEmpty data, 16 ≤ data.length → word data ≠ 0 →
    resolveDynamic env nonEmpty (word data) (memoryReader m readable) = some t →
    renderInterface env nonEmpty data (memoryReader m readable)
        (renderDynamicValue env (memoryReader m readable) fuel) =
      payloadText env m readable fuel t (word (data.drop 8))
  /-- The steps of the recipe start where the data word points to. -/
  recipe : compileTypeRecipe t =
    ((pointedType t).elim [] fun u => u.relMemCaptures []).take maxTypeRecipeRules

/-- A pointer or function; a struct that neither Go nor `typeIsDirect` keeps in the data word;
any other type of no byte or more than eight. -/
def WellClassed (t : DType) : Prop :=
  match t.underlying with
  | .ptr _ _ _ => True
  | .func _ _ _ => True
  | .struct n s size fs => pointerShaped (.struct n s size fs) = false ∧ ¬ DirectStruct s size fs
  | u => u.size ≤ 0 ∨ 8 < u.size

theorem sized_iff {t u : DType} (hu : t.underlying = u) (hptr : u.isPtr = false)
    (hstruct : u.isStruct = false) (hfunc : u.isFunc = false) (hshaped : pointerShaped t = false) :
    u.size ≤ 0 ∨ 8 < u.size ↔
      typeIsDirect t = pointerShaped t ∧ (pointerShaped t = true → u.isStruct = false) := by
  subst hu
  have hdirect := typeIsDirect_other hptr hstruct hfunc
  rw [hshaped, Bool.eq_false_iff, Ne, hdirect, t.size_underlying]
  constructor
  · intro h
    exact ⟨by omega, nofun⟩
  · rintro ⟨h, -⟩
    omega

/-- The two classes agree, and a value in the data word is no struct. -/
theorem wellClassed_iff {t : DType} : WellClassed t ↔
    typeIsDirect t = pointerShaped t ∧
      (pointerShaped t = true → t.underlying.isStruct = false) := by
  have hshaped := pointerShaped_underlying t
  unfold WellClassed
  cases hu : t.underlying with
  | ptr n b elem =>
    have hdirect := direct_of_isPtr (t := t) (by rw [hu]; rfl)
    simp [hdirect, DType.isStruct]
  | func n s b =>
    have hdirect : typeIsDirect t = true := by unfold typeIsDirect; rw [hu]
    rw [hu] at hshaped
    rw [← hshaped, hdirect]
    simp [pointerShaped, DType.isStruct]
  | struct n s size fs =>
    have hdirect := typeIsDirect_struct hu
    rw [hu] at hshaped
    rw [← hshaped]
    cases hp : pointerShaped (.struct n s size fs) with
    | true => simp [hp, DType.isStruct]
    | false => simp [hp, ← hdirect]
  | basic kind n b => exact sized_iff hu rfl rfl rfl (by rw [← hshaped, hu]; rfl)
  | other n s b => exact sized_iff hu rfl rfl rfl (by rw [← hshaped, hu]; rfl)
  | typedef n t' => exact absurd hu (t.underlying_ne_typedef n t')
  | qual q t' => exact absurd hu (t.underlying_ne_qual q t')

section
variable {env : RenderEnv} {m : Memory} {readable : UInt64 → Nat → Bool} {t : DType}

/-- Only a plain struct is looked for at its address. -/
theorem renderDynamicValue_addr {read : MemoryReader} (hstruct : t.underlying.isStruct = false)
    (fuel : Nat) (data : List UInt8) (a b : UInt64) :
    renderDynamicValue env read fuel t data a = renderDynamicValue env read fuel t data b := by
  cases fuel with
  | zero => rfl
  | succ fuel =>
    change renderStep env read _ t data a = renderStep env read _ t data b
    unfold renderStep
    cases hu : t.underlying with
    | struct n s size fs => rw [hu] at hstruct; cases hstruct
    | _ => rfl

/-- What is read at the data word is the payload. -/
theorem objectBytes_payload (hshaped : pointerShaped t = false) (w : UInt64) :
    objectBytes t [] w (memoryReader m readable) = (payload m readable t w).getD [] := by
  unfold objectBytes payload memoryReader
  by_cases hsize : t.size ≤ 0
  · have hno : ¬ 0 < t.size := by omega
    simp [hshaped, hsize, hno]
  have hpos : 0 < t.size := by omega
  by_cases hread : w ≠ 0 ∧ t.size ≤ maxReadSize
  · cases hok : readable w t.size.toNat <;> simp [hshaped, hsize, hpos, hread, hok]
  · rw [not_and] at hread
    by_cases hw : w = 0
    · simp [hshaped, hw]
    · simp [hshaped, hw, hread hw]

theorem payload_ne_nil {w : UInt64} {bytes : List UInt8} (h : payload m readable t w = some bytes) :
    bytes ≠ [] := by
  unfold payload at h
  split at h
  · obtain rfl := Option.some.inj h
    exact List.ne_nil_of_length_pos (by rw [Lib.wordBytes_length]; decide)
  · split at h
    · rename_i hcond
      obtain rfl := Option.some.inj h
      refine List.ne_nil_of_length_pos ?_
      rw [Memory.slice_length]
      omega
    · cases h

/-- A well classed type is interpreted. -/
theorem WellClassed.interprets (h : WellClassed t) : Interprets t := by
  obtain ⟨hclass, hstruct⟩ := wellClassed_iff.mp h
  refine ⟨hclass, ?_, ?_, ?_⟩
  · intro env m readable nonEmpty data hres c hc
    unfold interfaceCalls at hc
    split at hc
    · cases hc
    rw [hres] at hc
    dsimp only at hc
    split at hc
    · rename_i hdirect
      rw [hclass] at hdirect
      split at hc
      · cases hc
      · obtain rfl := List.mem_singleton.mp hc
        refine ⟨by rw [payload, if_pos hdirect], fun hyes => ?_⟩
        rw [hstruct hdirect] at hyes
        cases hyes
    · rename_i hdirect
      rw [hclass] at hdirect
      have hshaped := Bool.eq_false_iff.mpr hdirect
      rw [objectBytes_payload hshaped] at hc
      split at hc
      · cases hc
      · rename_i hsome
        obtain rfl := List.mem_singleton.mp hc
        refine ⟨?_, fun _ => by rw [payloadAddr, if_neg hdirect]⟩
        dsimp only
        cases hpay : payload m readable t (word (data.drop 8)) with
        | none => rw [hpay] at hsome; exact absurd rfl hsome
        | some bytes => rfl
  · intro env m readable fuel nonEmpty data hlen hword hres
    unfold renderInterface payloadText
    rw [if_neg (Nat.not_lt.mpr hlen)]
    dsimp only
    rw [if_neg hword, hres]
    dsimp only
    generalize word (data.drop 8) = w
    cases hshaped : pointerShaped t with
    | true =>
      have haddr := @renderDynamicValue_addr env t (memoryReader m readable) (hstruct hshaped) fuel
        (wordBytes w) w 0
      rw [hclass, hshaped, if_pos rfl, payload, payloadAddr, hshaped, if_pos rfl, if_pos rfl, haddr]
      cases t.underlying <;> rfl
    | false =>
      have hptr : t.underlying.isPtr = false := by
        cases hptr : t.underlying.isPtr with
        | false => rfl
        | true => rw [(direct_of_isPtr hptr).2] at hshaped; cases hshaped
      have hnil : ¬ (false = true ∧ w = 0) := fun h => Bool.false_ne_true h.1
      rw [hclass, hshaped, if_neg Bool.false_ne_true, hptr, if_neg hnil,
        objectBytes_payload hshaped]
      cases hpay : payload m readable t w with
      | none => rfl
      | some bytes =>
        have hne : bytes.isEmpty = false := by
          cases bytes with
          | nil => exact absurd rfl (payload_ne_nil hpay)
          | cons b bytes => rfl
        rw [payloadAddr, hshaped, if_neg Bool.false_ne_true]
        simp [hne]
  · unfold compileTypeRecipe pointedType
    dsimp only
    rw [hclass]
    cases hshaped : pointerShaped t with
    | true =>
      rw [← pointerShaped_underlying] at hshaped
      rw [if_pos rfl]
      cases hu : t.underlying with
      | ptr n b elem => rfl
      | _ =>
        rw [hu] at hshaped
        simp [hshaped]
    | false =>
      rw [← pointerShaped_underlying] at hshaped
      rw [if_neg Bool.false_ne_true]
      cases hu : t.underlying with
      | ptr n b elem => rw [hu] at hshaped; cases hshaped
      | _ =>
        rw [hu] at hshaped
        simp [hshaped]

/-- A struct in the data word is handed the word as its address. -/
theorem not_interprets_struct (hdirect : typeIsDirect t = true) (hshaped : pointerShaped t = true)
    (hstruct : t.underlying.isStruct = true) : ¬ Interprets t := by
  intro h
  let env : RenderEnv :=
    { text := ⟨fun _ => "", fun _ => "", fun _ => "", fun _ => "", fun _ => "", fun _ => "",
        fun _ => true⟩
      resolveType := fun _ => some t
      hideUnexported := false }
  have hptr : t.underlying.isPtr = false := by
    cases hu : t.underlying with
    | struct n s b fs => rfl
    | _ => rw [hu] at hstruct; cases hstruct
  have hcall : interfaceCalls env false (wordBytes 1 ++ wordBytes 1)
      (memoryReader (fun _ => 0) fun _ _ => true) = [⟨t, wordBytes 1, 1⟩] := by
    have hone : word (wordBytes 1 ++ wordBytes 1) = 1 := Lib.word_wordBytes_append 1 _
    have hnext : word ((wordBytes 1 ++ wordBytes 1).drop 8) = 1 := Lib.word_wordBytes 1
    unfold interfaceCalls
    simp only [hone, hnext, hdirect, hptr, resolveDynamic, env]
    rfl
  have haddr := (h.given env (fun _ => 0) (fun _ _ => true) false (wordBytes 1 ++ wordBytes 1) rfl _
    (by rw [hcall]; exact List.mem_singleton_self _)).2 hstruct
  rw [payloadAddr, if_pos hshaped] at haddr
  cases haddr

end

/-- The types whose payloads are interpreted by the representation of Go. -/
theorem interprets_iff (t : DType) : Interprets t ↔ WellClassed t := by
  refine ⟨fun h => ?_, WellClassed.interprets⟩
  refine wellClassed_iff.mpr ⟨h.direct, fun hshaped => ?_⟩
  by_contra hstruct
  exact not_interprets_struct (h.direct.trans hshaped) hshaped
    (Bool.not_eq_false _ ▸ hstruct) h

/-- An `int` of value 42 at the address 4096 is shown as its address. -/
theorem int_shows_address :
    let t : DType := .basic .int "int" 8
    let env : RenderEnv :=
      { text := ⟨fun _ => "", fun _ => "", fun _ => "", fun _ => "", fun _ => "", fun _ => "",
          fun _ => true⟩
        resolveType := fun _ => some t
        hideUnexported := false }
    let m : Memory := fun a => if a = 4096 then 42 else 0
    let read := memoryReader m fun _ _ => true
    typeIsDirect t = true ∧ pointerShaped t = false ∧
      renderInterface env false (wordBytes 1 ++ wordBytes 4096) read
        (renderDynamicValue env read 7) = "4096" ∧
      payloadText env m (fun _ _ => true) 7 t 4096 = "42" := by
  refine ⟨rfl, rfl, ?_, ?_⟩
  · with_unfolding_all decide
  · with_unfolding_all decide

end GoFtrace.Uprobe
