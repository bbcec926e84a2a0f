import GoFtrace.Uprobe.Value

/-!
# What rendering reads

The reads that one call of `renderDynamicValue` makes, and the calls it makes on parts of
the value, branch by branch.

* `renderDynamicValue_congr`: rendering depends on nothing else of the memory.
* `reads_congr`: nor does the walk itself.
-/

namespace GoFtrace.Uprobe

open Lib

/-- An address and a number of bytes. -/
abbrev Read := UInt64 × Nat

/-- The arguments of a call of `renderDynamicValue`. -/
structure Call where
  type : DType
  data : List UInt8
  addr : UInt64

/-- The value that a call renders. -/
def Call.render (c : Call) (r : Renderer) : String := r c.type c.data c.addr

/-! ## Reads -/

/-- The read of `objectBytes`. -/
def objectReads (t : DType) (addr : UInt64) : List Read :=
  if 0 < t.size ∧ addr ≠ 0 ∧ t.size ≤ maxReadSize then [(addr, t.size.toNat)] else []

def pointerReads (elem : DType) (data : List UInt8) : List Read :=
  if word data = 0 ∨ elem.size ≤ 0 ∨ maxReadSize < elem.size then []
  else [(word data, elem.size.toNat)]

def stringReads (data : List UInt8) : List Read :=
  let strLen := signedOf 8 (data.drop 8)
  if data.length < 16 ∨ strLen ≤ 0 then [] else [(word data, (min strLen autoStringSize).toNat)]

def sliceReads (structName : String) (fields : Fields) (data : List UInt8) : List Read :=
  let len := signedOf 8 (data.drop 8)
  if data.length < 24 ∨ len ≤ 0 ∨ word data = 0 ∨ !isByteElemSlice structName fields then []
  else [(word data, (min len autoStringSize).toNat)]

/-- The read of the type word of an itab, and that of the value when it is not direct. -/
def interfaceReads (env : RenderEnv) (nonEmpty : Bool) (data : List UInt8)
    (read : MemoryReader) : List Read :=
  if data.length < 16 ∨ word data = 0 then []
  else
    (if (env.resolveType (word data)).isNone && nonEmpty then [(word data + 8, 8)] else []) ++
      match resolveDynamic env nonEmpty (word data) read with
      | none => []
      | some t => if typeIsDirect t then [] else objectReads t (word (data.drop 8))

/-- The read of `renderStructField`. -/
def fieldReads (off : Int) (t : DType) (data : List UInt8) (addr : UInt64) : List Read :=
  let own := data.drop off.toNat
  if 0 ≤ off ∧ 0 < t.size ∧ own.length < t.size ∧ addr ≠ 0 then
    [(addr + UInt64.ofInt off, t.size.toNat)]
  else []

/-- Whether a field is printed. -/
def RenderEnv.prints (env : RenderEnv) (name : String) : Bool :=
  !(env.hideUnexported && !env.text.isExported name)

def fieldsReads (env : RenderEnv) (data : List UInt8) (addr : UInt64) : Fields → List Read
  | .nil => []
  | .cons n off t rest =>
    (if env.prints n then fieldReads off t data addr else []) ++ fieldsReads env data addr rest

/-- The reads that a call makes itself. -/
def Call.ownReads (env : RenderEnv) (read : MemoryReader) (c : Call) : List Read :=
  match c.type.underlying with
  | .ptr _ _ elem => pointerReads elem c.data
  | .struct n s b fs =>
    match structKind s fs with
    | .string => stringReads c.data
    | .slice => sliceReads s fs c.data
    | .iface nonEmpty => interfaceReads env nonEmpty c.data read
    | .plain =>
      objectReads (.struct n s b fs) c.addr ++
        fieldsReads env (objectBytes (.struct n s b fs) c.data c.addr read) c.addr fs
  | _ => []

/-! ## Calls -/

def pointerCalls (elem : DType) (data : List UInt8) (read : MemoryReader) : List Call :=
  if word data = 0 ∨ elem.size ≤ 0 ∨ maxReadSize < elem.size then []
  else
    match read (word data) elem.size.toNat with
    | none => []
    | some buf => [⟨elem, buf, word data⟩]

def interfaceCalls (env : RenderEnv) (nonEmpty : Bool) (data : List UInt8)
    (read : MemoryReader) : List Call :=
  if data.length < 16 ∨ word data = 0 then []
  else
    let dataAddr := word (data.drop 8)
    match resolveDynamic env nonEmpty (word data) read with
    | none => []
    | some t =>
      if typeIsDirect t then
        if t.underlying.isPtr ∧ dataAddr = 0 then [] else [⟨t, wordBytes dataAddr, dataAddr⟩]
      else
        let value := objectBytes t [] dataAddr read
        if value.isEmpty then [] else [⟨t, value, dataAddr⟩]

/-- The bytes that `renderStructField` hands to the renderer. -/
def fieldBytes (off : Int) (t : DType) (data : List UInt8) (addr : UInt64)
    (read : MemoryReader) : List UInt8 :=
  let own := data.drop off.toNat
  if 0 < t.size ∧ own.length < t.size ∧ addr ≠ 0 then
    (read (addr + UInt64.ofInt off) t.size.toNat).getD own
  else own

def fieldCalls (off : Int) (t : DType) (data : List UInt8) (addr : UInt64)
    (read : MemoryReader) : List Call :=
  if off < 0 ∨ (fieldBytes off t data addr read).isEmpty then []
  else [⟨t, fieldBytes off t data addr read, addr + UInt64.ofInt off⟩]

def fieldsCalls (env : RenderEnv) (data : List UInt8) (addr : UInt64) (read : MemoryReader) :
    Fields → List Call
  | .nil => []
  | .cons n off t rest =>
    (if env.prints n then fieldCalls off t data addr read else []) ++
      fieldsCalls env data addr read rest

/-- The calls that a call makes. -/
def Call.calls (env : RenderEnv) (read : MemoryReader) (c : Call) : List Call :=
  match c.type.underlying with
  | .ptr _ _ elem => pointerCalls elem c.data read
  | .struct n s b fs =>
    match structKind s fs with
    | .iface nonEmpty => interfaceCalls env nonEmpty c.data read
    | .plain =>
      fieldsCalls env (objectBytes (.struct n s b fs) c.data c.addr read) c.addr read fs
    | _ => []
  | _ => []

/-- The reads of a rendering with `fuel` levels left. -/
def Call.reads (env : RenderEnv) (read : MemoryReader) : Nat → Call → List Read
  | 0, _ => []
  | fuel + 1, c => c.ownReads env read ++ (c.calls env read).flatMap (Call.reads env read fuel)

/-! ## Nested interfaces -/

/-- The read of `nestedTypeAddr`. -/
def nestedTypeReads (nonEmpty : Bool) (mem : List UInt8) : List Read :=
  let tab := if 8 ≤ mem.length then word mem else 0
  if nonEmpty ∧ tab ≠ 0 then [(tab + 8, 8)] else []

mutual

/-- The reads of `applyNestedRecipes`, which are made with and without recipes. -/
def DType.nestedReads : DType → List UInt8 → List Read
  | .typedef _ t, mem => t.nestedReads mem
  | .qual _ t, mem => t.nestedReads mem
  | .struct _ s _ fs, mem =>
    if isInterface s fs then nestedTypeReads (interfaceIsNonEmpty s fs) mem
    else if isString s || isSlice s fs then []
    else fs.nestedReads mem
  | _, _ => []

def Fields.nestedReads : Fields → List UInt8 → List Read
  | .nil, _ => []
  | .cons _ off t rest, mem => t.nestedReads (fieldMem mem off) ++ rest.nestedReads mem

end

/-! ## Rendering and its reads -/

/-- Two readers agree on some reads. -/
def AgreeOn (reads : List Read) (read read' : MemoryReader) : Prop :=
  ∀ r ∈ reads, read' r.1 r.2 = read r.1 r.2

section
variable {env : RenderEnv} {read read' : MemoryReader}

theorem AgreeOn.left {xs ys : List Read} (h : AgreeOn (xs ++ ys) read read') :
    AgreeOn xs read read' := fun r hr => h r (List.mem_append_left ys hr)

theorem AgreeOn.right {xs ys : List Read} (h : AgreeOn (xs ++ ys) read read') :
    AgreeOn ys read read' := fun r hr => h r (List.mem_append_right xs hr)

theorem objectBytes_congr {t : DType} {addr : UInt64} (h : AgreeOn (objectReads t addr) read read')
    (data : List UInt8) : objectBytes t data addr read' = objectBytes t data addr read := by
  unfold objectBytes
  dsimp only
  by_cases hcond : 0 < t.size ∧ addr ≠ 0 ∧ t.size ≤ maxReadSize
  · have hread : read' addr t.size.toNat = read addr t.size.toNat :=
      h (addr, t.size.toNat) (by rw [objectReads, if_pos hcond]; exact List.mem_singleton_self _)
    rw [hread]
  · by_cases hsize : t.size ≤ 0
    · rw [if_pos hsize, if_pos hsize]
    · have hno : ¬ (addr ≠ 0 ∧ t.size ≤ maxReadSize) := fun hc => hcond ⟨by omega, hc⟩
      rw [if_neg hno, if_neg hno]

theorem fieldBytes_congr {off : Int} {t : DType} {data : List UInt8} {addr : UInt64}
    (hoff : 0 ≤ off) (h : AgreeOn (fieldReads off t data addr) read read') :
    fieldBytes off t data addr read' = fieldBytes off t data addr read := by
  unfold fieldBytes
  dsimp only
  by_cases hcond : 0 < t.size ∧ (data.drop off.toNat).length < t.size ∧ addr ≠ 0
  · have hmem : (addr + UInt64.ofInt off, t.size.toNat) ∈ fieldReads off t data addr := by
      rw [fieldReads]
      rw [if_pos ⟨hoff, hcond⟩]
      exact List.mem_singleton_self _
    rw [h _ hmem]
  · rw [if_neg hcond, if_neg hcond]

variable {deeper deeper' : Renderer}

theorem renderPointer_congr {t elem : DType} {data : List UInt8}
    (hreads : AgreeOn (pointerReads elem data) read read')
    (hcalls : ∀ c ∈ pointerCalls elem data read, c.render deeper' = c.render deeper) :
    renderPointer t elem data read' deeper' = renderPointer t elem data read deeper := by
  unfold renderPointer
  dsimp only
  by_cases hptr : word data = 0
  · rw [if_pos hptr, if_pos hptr]
  rw [if_neg hptr, if_neg hptr]
  by_cases hsize : elem.size ≤ 0 ∨ maxReadSize < elem.size
  · rw [if_pos hsize, if_pos hsize]
  rw [if_neg hsize, if_neg hsize]
  have hno : ¬ (word data = 0 ∨ elem.size ≤ 0 ∨ maxReadSize < elem.size) := not_or.mpr ⟨hptr, hsize⟩
  have hread : read' (word data) elem.size.toNat = read (word data) elem.size.toNat :=
    hreads (word data, elem.size.toNat)
      (by rw [pointerReads, if_neg hno]; exact List.mem_singleton_self _)
  rw [pointerCalls, if_neg hno] at hcalls
  rw [hread]
  cases hbuf : read (word data) elem.size.toNat with
  | none => rfl
  | some buf =>
    rw [hbuf] at hcalls
    have hcall : deeper' elem buf (word data) = deeper elem buf (word data) :=
      hcalls _ (List.mem_singleton_self _)
    dsimp only
    rw [hcall]

theorem renderString_congr {data : List UInt8} (hreads : AgreeOn (stringReads data) read read') :
    renderString env data read' = renderString env data read := by
  unfold renderString
  dsimp only
  by_cases hshort : data.length < 16
  · rw [if_pos hshort, if_pos hshort]
  by_cases hlen : signedOf 8 (data.drop 8) ≤ 0
  · rcases Int.lt_or_eq_of_le hlen with hlt | heq
    · rw [if_pos hlt, if_pos hlt]
    · rw [heq]
      rfl
  · have hread : read' (word data) _ = read (word data) _ :=
      hreads (word data, (min (signedOf 8 (data.drop 8)) autoStringSize).toNat) (by
        rw [stringReads]
        rw [if_neg (not_or.mpr ⟨hshort, hlen⟩)]
        exact List.mem_singleton_self _)
    rw [hread]

theorem renderSlice_congr {s : String} {fs : Fields} {data : List UInt8}
    (hreads : AgreeOn (sliceReads s fs data) read read') :
    renderSlice env s fs data read' = renderSlice env s fs data read := by
  unfold renderSlice
  by_cases hshort : data.length < 24
  · rw [if_pos hshort, if_pos hshort]
  rw [if_neg hshort, if_neg hshort]
  have hpayload : renderSlicePayload env s fs (word data) (signedOf 8 (data.drop 8)) read' =
      renderSlicePayload env s fs (word data) (signedOf 8 (data.drop 8)) read := by
    unfold renderSlicePayload
    by_cases hno : signedOf 8 (data.drop 8) ≤ 0 ∨ word data = 0 ∨ !isByteElemSlice s fs
    · rw [if_pos hno, if_pos hno]
    · have hread : read' (word data) _ = read (word data) _ :=
        hreads (word data, (min (signedOf 8 (data.drop 8)) autoStringSize).toNat) (by
          rw [sliceReads]
          rw [if_neg (not_or.mpr ⟨hshort, hno⟩)]
          exact List.mem_singleton_self _)
      rw [hread]
  dsimp only
  rw [hpayload]

theorem resolveDynamic_congr {nonEmpty : Bool} {typeAddr : UInt64}
    (h : (env.resolveType typeAddr).isNone = true → nonEmpty = true →
      read' (typeAddr + 8) 8 = read (typeAddr + 8) 8) :
    resolveDynamic env nonEmpty typeAddr read' = resolveDynamic env nonEmpty typeAddr read := by
  unfold resolveDynamic
  cases hres : env.resolveType typeAddr with
  | some t => rfl
  | none =>
    cases nonEmpty with
    | false => rfl
    | true =>
      dsimp only
      rw [if_pos rfl, if_pos rfl, h (by rw [hres]; rfl) rfl]

theorem resolveDynamic_of_reads {nonEmpty : Bool} {data : List UInt8}
    (hcond : ¬ (data.length < 16 ∨ word data = 0))
    (h : AgreeOn (interfaceReads env nonEmpty data read) read read') :
    resolveDynamic env nonEmpty (word data) read' =
      resolveDynamic env nonEmpty (word data) read := by
  rw [interfaceReads, if_neg hcond] at h
  refine resolveDynamic_congr fun hnone hne => h.left (word data + 8, 8) ?_
  rw [hnone, hne]
  exact List.mem_singleton_self _

theorem renderInterface_congr {nonEmpty : Bool} {data : List UInt8}
    (hreads : AgreeOn (interfaceReads env nonEmpty data read) read read')
    (hcalls : ∀ c ∈ interfaceCalls env nonEmpty data read, c.render deeper' = c.render deeper) :
    renderInterface env nonEmpty data read' deeper' =
      renderInterface env nonEmpty data read deeper := by
  unfold renderInterface
  by_cases hshort : data.length < 16
  · rw [if_pos hshort, if_pos hshort]
  rw [if_neg hshort, if_neg hshort]
  dsimp only
  by_cases hnil : word data = 0
  · rw [if_pos hnil, if_pos hnil]
  rw [if_neg hnil, if_neg hnil]
  rw [resolveDynamic_of_reads (not_or.mpr ⟨hshort, hnil⟩) hreads]
  rw [interfaceReads, if_neg (not_or.mpr ⟨hshort, hnil⟩)] at hreads
  rw [interfaceCalls, if_neg (not_or.mpr ⟨hshort, hnil⟩)] at hcalls
  cases hres : resolveDynamic env nonEmpty (word data) read with
  | none => rfl
  | some t =>
    dsimp only
    rw [hres] at hreads hcalls
    have hobject := hreads.right
    dsimp only at hobject hcalls
    by_cases hdirect : typeIsDirect t = true
    · rw [if_pos hdirect, if_pos hdirect]
      rw [if_pos hdirect] at hcalls
      have hdeeper : ∀ isPtr : Bool, isPtr = t.underlying.isPtr → ∀ nilText : String,
          (if isPtr ∧ word (data.drop 8) = 0 then nilText
            else deeper' t (wordBytes (word (data.drop 8))) (word (data.drop 8))) =
          if isPtr ∧ word (data.drop 8) = 0 then nilText
            else deeper t (wordBytes (word (data.drop 8))) (word (data.drop 8)) := by
        rintro isPtr rfl nilText
        split
        · rfl
        · rename_i hsome
          rw [if_neg hsome] at hcalls
          exact hcalls _ (List.mem_singleton_self _)
      exact hdeeper _ (by cases t.underlying <;> rfl) _
    · rw [if_neg hdirect, if_neg hdirect]
      rw [if_neg hdirect] at hcalls hobject
      rw [objectBytes_congr hobject]
      split
      · rfl
      · rename_i hsome
        rw [if_neg hsome] at hcalls
        exact hcalls _ (List.mem_singleton_self _)

theorem renderStructField_eq (off : Int) (t : DType) (data : List UInt8) (addr : UInt64)
    (read : MemoryReader) (deeper : Renderer) :
    renderStructField off t data addr read deeper =
      if off < 0 ∨ (fieldBytes off t data addr read).isEmpty then "<unavailable>"
      else deeper t (fieldBytes off t data addr read) (addr + UInt64.ofInt off) := by
  unfold renderStructField
  by_cases hoff : off < 0
  · rw [if_pos hoff, if_pos (.inl hoff)]
  · rw [if_neg hoff]
    change (if (fieldBytes off t data addr read).isEmpty = true then _ else _) = _
    simp only [hoff, false_or]
    rfl

theorem renderStructField_congr {off : Int} {t : DType} {data : List UInt8} {addr : UInt64}
    (hreads : AgreeOn (fieldReads off t data addr) read read')
    (hcalls : ∀ c ∈ fieldCalls off t data addr read, c.render deeper' = c.render deeper) :
    renderStructField off t data addr read' deeper' =
      renderStructField off t data addr read deeper := by
  rw [renderStructField_eq, renderStructField_eq]
  by_cases hoff : off < 0
  · rw [if_pos (.inl hoff), if_pos (.inl hoff)]
  · rw [fieldBytes_congr (by omega) hreads]
    split
    · rfl
    · rename_i hsome
      rw [fieldCalls, if_neg hsome] at hcalls
      exact hcalls _ (List.mem_singleton_self _)

theorem renderFields_congr {data : List UInt8} {addr : UInt64} {fs : Fields}
    (hreads : AgreeOn (fieldsReads env data addr fs) read read')
    (hcalls : ∀ c ∈ fieldsCalls env data addr read fs, c.render deeper' = c.render deeper) :
    renderFields env data addr read' deeper' fs = renderFields env data addr read deeper fs := by
  cases fs with
  | nil => rfl
  | cons n off t rest =>
    rw [fieldsReads] at hreads
    rw [fieldsCalls] at hcalls
    have hrest := renderFields_congr hreads.right fun c hc => hcalls c (List.mem_append_right _ hc)
    rw [renderFields, renderFields, hrest]
    by_cases hprints : env.prints n = true
    · have hhead := hreads.left
      rw [if_pos hprints] at hhead
      have hfield := renderStructField_congr hhead fun c hc =>
        hcalls c (List.mem_append_left _ (by rwa [if_pos hprints]))
      rw [hfield]
    · rw [RenderEnv.prints, Bool.not_eq_true', Bool.not_eq_false] at hprints
      rw [if_pos hprints, if_pos hprints]

theorem renderStep_congr {c : Call} (hreads : AgreeOn (c.ownReads env read) read read')
    (hcalls : ∀ c' ∈ c.calls env read, c'.render deeper' = c'.render deeper) :
    c.render (renderStep env read' deeper') = c.render (renderStep env read deeper) := by
  unfold Call.render renderStep
  unfold Call.ownReads at hreads
  unfold Call.calls at hcalls
  cases hu : c.type.underlying with
  | ptr n b elem =>
    simp only [hu] at hreads hcalls ⊢
    exact renderPointer_congr hreads hcalls
  | struct n s b fs =>
    simp only [hu] at hreads hcalls ⊢
    cases hkind : structKind s fs with
    | string =>
      rw [hkind] at hreads
      exact renderString_congr hreads
    | slice =>
      rw [hkind] at hreads
      exact renderSlice_congr hreads
    | iface nonEmpty =>
      rw [hkind] at hreads hcalls
      exact renderInterface_congr hreads hcalls
    | plain =>
      rw [hkind] at hreads hcalls
      dsimp only at hreads hcalls ⊢
      rw [objectBytes_congr hreads.left, renderFields_congr hreads.right hcalls]
  | _ => rfl

/-- Rendering a value depends on the reads that it makes and on nothing else of the memory. -/
theorem renderDynamicValue_congr {fuel : Nat} {c : Call}
    (h : AgreeOn (c.reads env read fuel) read read') :
    c.render (renderDynamicValue env read' fuel) = c.render (renderDynamicValue env read fuel) := by
  induction fuel generalizing c with
  | zero => rfl
  | succ fuel ih =>
    rw [Call.reads] at h
    refine renderStep_congr h.left fun c' hc' => ih fun r hr => ?_
    exact h.right r (List.mem_flatMap.mpr ⟨c', hc', hr⟩)

/-! ## Walks with two readers -/

theorem interfaceReads_congr {nonEmpty : Bool} {data : List UInt8}
    (h : AgreeOn (interfaceReads env nonEmpty data read) read read') :
    interfaceReads env nonEmpty data read' = interfaceReads env nonEmpty data read := by
  by_cases hcond : data.length < 16 ∨ word data = 0
  · rw [interfaceReads, interfaceReads, if_pos hcond, if_pos hcond]
  · rw [interfaceReads, resolveDynamic_of_reads hcond h, interfaceReads]

theorem ownReads_congr {c : Call} (h : AgreeOn (c.ownReads env read) read read') :
    c.ownReads env read' = c.ownReads env read := by
  unfold Call.ownReads at h ⊢
  cases hu : c.type.underlying with
  | struct n s b fs =>
    simp only [hu] at h ⊢
    cases hkind : structKind s fs with
    | iface nonEmpty =>
      simp only [hkind] at h ⊢
      exact interfaceReads_congr h
    | plain =>
      simp only [hkind] at h ⊢
      rw [objectBytes_congr h.left]
    | _ => rfl
  | _ => rfl

theorem pointerCalls_congr {elem : DType} {data : List UInt8}
    (h : AgreeOn (pointerReads elem data) read read') :
    pointerCalls elem data read' = pointerCalls elem data read := by
  unfold pointerCalls
  unfold pointerReads at h
  split
  · rfl
  · rename_i hcond
    rw [if_neg hcond] at h
    rw [h (word data, elem.size.toNat) (List.mem_singleton_self _)]

theorem interfaceCalls_congr {nonEmpty : Bool} {data : List UInt8}
    (h : AgreeOn (interfaceReads env nonEmpty data read) read read') :
    interfaceCalls env nonEmpty data read' = interfaceCalls env nonEmpty data read := by
  unfold interfaceCalls
  split
  · rfl
  rename_i hcond
  dsimp only
  rw [resolveDynamic_of_reads hcond h]
  rw [interfaceReads, if_neg hcond] at h
  cases hres : resolveDynamic env nonEmpty (word data) read with
  | none => rfl
  | some t =>
    rw [hres] at h
    have hobject := h.right
    dsimp only at hobject ⊢
    split
    · rfl
    · rename_i hdirect
      rw [if_neg hdirect] at hobject
      rw [objectBytes_congr hobject]

theorem fieldCalls_congr {off : Int} {t : DType} {data : List UInt8} {addr : UInt64}
    (h : AgreeOn (fieldReads off t data addr) read read') :
    fieldCalls off t data addr read' = fieldCalls off t data addr read := by
  unfold fieldCalls
  by_cases hoff : off < 0
  · rw [if_pos (.inl hoff), if_pos (.inl hoff)]
  · rw [fieldBytes_congr (by omega) h]

theorem fieldsCalls_congr {data : List UInt8} {addr : UInt64} {fs : Fields}
    (h : AgreeOn (fieldsReads env data addr fs) read read') :
    fieldsCalls env data addr read' fs = fieldsCalls env data addr read fs := by
  cases fs with
  | nil => rfl
  | cons n off t rest =>
    rw [fieldsReads] at h
    rw [fieldsCalls, fieldsCalls, fieldsCalls_congr h.right]
    split
    · rename_i hprints
      have hfield := h.left
      rw [if_pos hprints] at hfield
      rw [fieldCalls_congr hfield]
    · rfl

theorem calls_congr {c : Call} (h : AgreeOn (c.ownReads env read) read read') :
    c.calls env read' = c.calls env read := by
  unfold Call.ownReads at h
  unfold Call.calls
  cases hu : c.type.underlying with
  | ptr n b elem =>
    simp only [hu] at h ⊢
    exact pointerCalls_congr h
  | struct n s b fs =>
    simp only [hu] at h ⊢
    cases hkind : structKind s fs with
    | iface nonEmpty =>
      simp only [hkind] at h ⊢
      exact interfaceCalls_congr h
    | plain =>
      simp only [hkind] at h ⊢
      rw [objectBytes_congr h.left, fieldsCalls_congr h.right]
    | _ => rfl
  | _ => rfl

/-- Readers that agree on the reads of a walk make the same walk. -/
theorem reads_congr {fuel : Nat} {c : Call} (h : AgreeOn (c.reads env read fuel) read read') :
    c.reads env read' fuel = c.reads env read fuel := by
  induction fuel generalizing c with
  | zero => rfl
  | succ fuel ih =>
    rw [Call.reads] at h
    rw [Call.reads, Call.reads, ownReads_congr h.left, calls_congr h.left]
    refine congrArg (c.ownReads env read ++ ·) (List.flatMap_congr fun c' hc' => ih fun r hr => ?_)
    exact h.right r (List.mem_flatMap.mpr ⟨c', hc', hr⟩)

/-- Two readers agree on the walk that one of them makes exactly when they agree on the walk
of the other. -/
theorem agreeOn_reads_comm {fuel : Nat} {c : Call} :
    AgreeOn (c.reads env read fuel) read read' ↔ AgreeOn (c.reads env read' fuel) read read' := by
  constructor
  · intro h
    rwa [reads_congr h]
  · intro h
    have hsymm : AgreeOn (c.reads env read' fuel) read' read := fun r hr => (h r hr).symm
    rwa [reads_congr hsymm]

end

end GoFtrace.Uprobe
