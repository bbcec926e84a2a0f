import GoFtrace.Uprobe.Image
import GoFtrace.Uprobe.Reads

/-!
# Where rendered values live

Each call of `renderDynamicValue` renders a value that was somewhere when the probe fired:
in the words of an argument, in the data word of an interface, or in memory. The walk of the
renderer is followed over the values themselves, and what a call is given is compared with
what was there.

* `parts_faithful`: the step from a value to its parts.
* `nilVisited_faithful`: every value with a pointer or an interface that is reached is given
  its own bytes.
* `InWords.typesRead`: where every printed nil was nil, type words in registers were read.
-/

namespace GoFtrace.Uprobe

open Lib (Memory wordBytes)

/-! ## Classes of types -/

def DType.isStruct : DType → Bool
  | .struct _ _ _ _ => true
  | _ => false

/-- Whether the type is rendered as an interface. -/
def DType.isIface (t : DType) : Bool :=
  match t.underlying with
  | .struct _ s _ fs =>
    match structKind s fs with
    | .iface _ => true
    | _ => false
  | _ => false

theorem isIface_iff {t : DType} : t.isIface = true ↔ ∃ n s b fs nonEmpty,
    t.underlying = .struct n s b fs ∧ structKind s fs = .iface nonEmpty := by
  unfold DType.isIface
  constructor
  · intro h
    cases hu : t.underlying with
    | struct n s b fs =>
      rw [hu] at h
      dsimp only at h
      cases hkind : structKind s fs with
      | iface nonEmpty => exact ⟨n, s, b, fs, nonEmpty, rfl, hkind⟩
      | _ => rw [hkind] at h; cases h
    | _ => rw [hu] at h; cases h
  · rintro ⟨n, s, b, fs, nonEmpty, hu, hkind⟩
    rw [hu]
    dsimp only
    rw [hkind]

mutual

/-- Whether a pointer or an interface is rendered in a value of the type. -/
def DType.hasNil (env : RenderEnv) : DType → Bool
  | .typedef _ t => t.hasNil env
  | .qual _ t => t.hasNil env
  | .ptr _ _ _ => true
  | .struct _ s _ fs =>
    match structKind s fs with
    | .iface _ => true
    | .plain => fs.hasNil env
    | _ => false
  | _ => false

def Fields.hasNil (env : RenderEnv) : Fields → Bool
  | .nil => false
  | .cons n _ t rest => (env.prints n && t.hasNil env) || rest.hasNil env

end

theorem hasNil_underlying (env : RenderEnv) : ∀ t : DType, t.underlying.hasNil env = t.hasNil env
  | .typedef _ t => by
    rw [DType.hasNil]
    exact hasNil_underlying env t
  | .qual _ t => by
    rw [DType.hasNil]
    exact hasNil_underlying env t
  | .struct _ _ _ _ => rfl
  | .ptr _ _ _ => rfl
  | .basic _ _ _ => rfl
  | .func _ _ _ => rfl
  | .other _ _ _ => rfl

mutual

/-- A pointer or an interface takes words. -/
theorem leafWords_pos {env : RenderEnv} : ∀ t : DType, t.hasNil env = true → 0 < t.leafWords
  | .typedef _ t, h => by
    rw [DType.hasNil] at h
    exact leafWords_pos t h
  | .qual _ t, h => by
    rw [DType.hasNil] at h
    exact leafWords_pos t h
  | .struct _ s _ fs, h => by
    rw [DType.hasNil] at h
    rw [DType.leafWords]
    cases hkind : structKind s fs with
    | iface nonEmpty => exact Nat.two_pos
    | plain =>
      rw [hkind] at h
      exact fields_leafWords_pos fs h
    | _ => rw [hkind] at h; cases h
  | .ptr _ _ _, _ => Nat.one_pos
  | .basic _ _ _, _ => Nat.one_pos
  | .func _ _ _, _ => Nat.one_pos
  | .other _ _ _, _ => Nat.one_pos

theorem fields_leafWords_pos {env : RenderEnv} : ∀ fs : Fields, fs.hasNil env = true →
    0 < fs.leafWords
  | .nil, h => nomatch h
  | .cons _ _ t rest, h => by
    rw [Fields.hasNil, Bool.or_eq_true, Bool.and_eq_true] at h
    rw [Fields.leafWords]
    rcases h with ⟨-, h⟩ | h
    · exact Nat.add_pos_left (leafWords_pos t h) _
    · exact Nat.add_pos_right _ (fields_leafWords_pos rest h)

end

/-! ## Homes -/

/-- Where a value was when the probe fired. -/
inductive Home where
  /-- In words, with those of the fields after it. -/
  | words (ws : List UInt64)
  | memory (addr : UInt64)

namespace Home

/-- A pointer, or the first word of an interface. -/
def word (m : Memory) : Home → UInt64
  | .words ws => ws.getD 0 0
  | .memory a => m.wordAt a

/-- The data word of an interface. -/
def dataWord (m : Memory) : Home → UInt64
  | .words ws => ws.getD 1 0
  | .memory a => m.wordAt (a + 8)

/-- The home of a field, when the words of the fields before it are gone. -/
def field (off : Int) : Home → Home
  | .words ws => .words ws
  | .memory a => .memory (a + UInt64.ofInt off)

def skip (n : Nat) : Home → Home
  | .words ws => .words (ws.drop n)
  | .memory a => .memory a

end Home

/-- Whether Go keeps a value of the type in the data word of an interface. -/
def pointerShaped : DType → Bool
  | .typedef _ t => pointerShaped t
  | .qual _ t => pointerShaped t
  | .ptr _ _ _ => true
  | .func _ _ _ => true
  | .struct _ _ _ (.cons _ _ t .nil) => pointerShaped t
  | _ => false

/-- The home of the value of an interface with the data word `w`. -/
def dynamicHome (t : DType) (w : UInt64) : Home :=
  if pointerShaped t then .words [w] else .memory w

/-! ## The walk -/

/-- A call and the home of the value that it renders. -/
structure Spot where
  call : Call
  home : Home

def fieldsParts (env : RenderEnv) (data : List UInt8) (addr : UInt64) (read : MemoryReader) :
    Home → Fields → List Spot
  | _, .nil => []
  | h, .cons n off t rest =>
    (if env.prints n then
      (fieldCalls off t data addr read).map fun c => ⟨c, h.field off⟩
    else []) ++ fieldsParts env data addr read (h.skip t.leafWords) rest

/-- The values that are rendered as parts of a value. -/
def Spot.parts (env : RenderEnv) (read : MemoryReader) (m : Memory) (s : Spot) : List Spot :=
  match s.call.type.underlying with
  | .ptr _ _ elem =>
    (pointerCalls elem s.call.data read).map fun c => ⟨c, .memory (s.home.word m)⟩
  | .struct n st b fs =>
    match structKind st fs with
    | .iface nonEmpty =>
      (interfaceCalls env nonEmpty s.call.data read).map fun c =>
        ⟨c, dynamicHome c.type (s.home.dataWord m)⟩
    | .plain =>
      fieldsParts env (objectBytes (.struct n st b fs) s.call.data s.call.addr read)
        s.call.addr read s.home fs
    | _ => []
  | _ => []

/-- The values that are rendered with `fuel` levels left. -/
def Spot.visited (env : RenderEnv) (read : MemoryReader) (m : Memory) : Nat → Spot → List Spot
  | 0, _ => []
  | fuel + 1, s => s :: (s.parts env read m).flatMap (Spot.visited env read m fuel)

section
variable {env : RenderEnv} {read : MemoryReader} {m : Memory}

theorem fieldsParts_calls (data : List UInt8) (addr : UInt64) (h : Home) (fs : Fields) :
    (fieldsParts env data addr read h fs).map Spot.call = fieldsCalls env data addr read fs := by
  cases fs with
  | nil => rfl
  | cons n off t rest =>
    rw [fieldsParts, fieldsCalls, List.map_append, fieldsParts_calls]
    split
    · rw [List.map_map]
      exact congrArg (· ++ _) (List.map_id _)
    · rfl

theorem parts_pointer {s : Spot} {n : String} {b : Int} {elem : DType}
    (hu : s.call.type.underlying = .ptr n b elem) :
    s.parts env read m = (pointerCalls elem s.call.data read).map fun c =>
      ⟨c, .memory (s.home.word m)⟩ := by
  rw [Spot.parts, hu]

theorem parts_interface {s : Spot} {n st : String} {b : Int} {fs : Fields} {nonEmpty : Bool}
    (hu : s.call.type.underlying = .struct n st b fs) (hkind : structKind st fs = .iface nonEmpty) :
    s.parts env read m = (interfaceCalls env nonEmpty s.call.data read).map fun c =>
      ⟨c, dynamicHome c.type (s.home.dataWord m)⟩ := by
  simp only [Spot.parts, hu, hkind]

theorem parts_plain {s : Spot} {n st : String} {b : Int} {fs : Fields}
    (hu : s.call.type.underlying = .struct n st b fs) (hkind : structKind st fs = .plain) :
    s.parts env read m = fieldsParts env
      (objectBytes (.struct n st b fs) s.call.data s.call.addr read) s.call.addr read s.home
        fs := by
  simp only [Spot.parts, hu, hkind]

/-- The walk makes the calls of the renderer. -/
theorem parts_calls (s : Spot) : (s.parts env read m).map Spot.call = s.call.calls env read := by
  unfold Call.calls
  cases hu : s.call.type.underlying with
  | ptr n b elem =>
    rw [parts_pointer hu, List.map_map]
    exact List.map_id _
  | struct n st b fs =>
    dsimp only
    cases hkind : structKind st fs with
    | iface nonEmpty =>
      rw [parts_interface hu hkind, List.map_map]
      exact List.map_id _
    | plain =>
      rw [parts_plain hu hkind]
      exact fieldsParts_calls _ _ _ _
    | _ => simp only [Spot.parts, hu, hkind, List.map_nil]
  | _ => simp only [Spot.parts, hu, List.map_nil]

end

/-! ## Nil -/

/-- Whether a call renders a pointer or an interface. -/
def Call.nullable (c : Call) : Bool := c.type.underlying.isPtr || c.type.isIface

/-- Whether a call prints `nil`. -/
def Call.printsNil (c : Call) : Bool :=
  match c.type.underlying with
  | .ptr _ _ _ => Lib.word c.data == 0
  | .struct _ s _ fs =>
    match structKind s fs with
    | .iface _ => decide (16 ≤ c.data.length) && Lib.word c.data == 0
    | _ => false
  | _ => false

/-- Whether a call prints `(T)(nil)`: an interface that holds a nil pointer. -/
def Call.printsNilOf (env : RenderEnv) (read : MemoryReader) (c : Call) : Bool :=
  match c.type.underlying with
  | .struct _ s _ fs =>
    match structKind s fs with
    | .iface nonEmpty =>
      decide (16 ≤ c.data.length) && Lib.word c.data != 0 && Lib.word (c.data.drop 8) == 0 &&
        (resolveDynamic env nonEmpty (Lib.word c.data) read).any (·.underlying.isPtr)
    | _ => false
  | _ => false

/-- What is printed as nil was nil. -/
structure Spot.NilReal (env : RenderEnv) (read : MemoryReader) (m : Memory) (s : Spot) :
    Prop where
  nil : s.call.printsNil = true → s.home.word m = 0
  nilOf : s.call.printsNilOf env read = true → s.home.dataWord m = 0

section
variable {env : RenderEnv} {read : MemoryReader} {deeper : Renderer}

theorem render_printsNil {c : Call} (h : c.printsNil = true) :
    c.render (renderStep env read deeper) = "nil" := by
  unfold Call.printsNil at h
  unfold Call.render renderStep
  cases hu : c.type.underlying with
  | ptr n b elem =>
    simp only [hu, beq_iff_eq] at h
    dsimp only
    rw [renderPointer, if_pos h]
  | struct n st b fs =>
    simp only [hu] at h
    cases hkind : structKind st fs with
    | iface nonEmpty =>
      simp only [hkind, Bool.and_eq_true, decide_eq_true_eq, beq_iff_eq] at h
      simp only [hkind]
      unfold renderInterface
      rw [if_neg (Nat.not_lt.mpr h.1)]
      dsimp only
      rw [if_pos h.2]
    | _ => simp only [hkind, Bool.false_eq_true] at h
  | _ => simp only [hu, Bool.false_eq_true] at h

theorem append_ne_nil {s t : String} (h : 3 < t.length) : s ++ t ≠ "nil" := by
  intro heq
  have hlen := congrArg String.length heq
  rw [String.length_append] at hlen
  have hnil : "nil".length = 3 := rfl
  omega

theorem append_ne_nil_left {s t : String} (c : Char) (hc : c ≠ 'n')
    (hs : s.toList.head? = some c) : s ++ t ≠ "nil" := by
  intro heq
  have hlist := congrArg String.toList heq
  rw [String.toList_append] at hlist
  cases hcs : s.toList with
  | nil => rw [hcs] at hs; cases hs
  | cons d ds =>
    rw [hcs] at hs hlist
    obtain rfl := Option.some.inj hs
    exact hc (List.cons.inj hlist).1

theorem unknownInterface_ne_nil : unknownInterface ≠ "nil" := by with_unfolding_all decide

/-- An interface is printed as `nil` when it has no type, or when its value is printed so. -/
theorem renderInterface_nil {nonEmpty : Bool} {data : List UInt8}
    (h : renderInterface env nonEmpty data read deeper = "nil") :
    (16 ≤ data.length ∧ Lib.word data = 0) ∨
      ∃ c' ∈ interfaceCalls env nonEmpty data read, c'.render deeper = "nil" := by
  unfold renderInterface at h
  unfold interfaceCalls
  by_cases hshort : data.length < 16
  · rw [if_pos hshort] at h
    exact absurd h unknownInterface_ne_nil
  rw [if_neg hshort] at h
  dsimp only at h
  by_cases hzero : Lib.word data = 0
  · exact .inl ⟨Nat.le_of_not_lt hshort, hzero⟩
  rw [if_neg hzero] at h
  rw [if_neg (not_or.mpr ⟨hshort, hzero⟩)]
  right
  cases hres : resolveDynamic env nonEmpty (Lib.word data) read with
  | none =>
    rw [hres] at h
    exact absurd h unknownInterface_ne_nil
  | some t =>
    rw [hres] at h
    dsimp only at h ⊢
    by_cases hdirect : typeIsDirect t = true
    · rw [if_pos hdirect] at h ⊢
      have hcond : ∀ isPtr : Bool, isPtr = t.underlying.isPtr →
          (if isPtr ∧ Lib.word (data.drop 8) = 0 then "(" ++ t.typeName ++ ")(nil)"
            else deeper t (wordBytes (Lib.word (data.drop 8))) (Lib.word (data.drop 8))) = "nil" →
          ¬ (t.underlying.isPtr = true ∧ Lib.word (data.drop 8) = 0) ∧
            deeper t (wordBytes (Lib.word (data.drop 8))) (Lib.word (data.drop 8)) = "nil" := by
        rintro isPtr rfl heq
        split at heq
        · exact absurd heq (append_ne_nil (by decide))
        · exact ⟨‹_›, heq⟩
      obtain ⟨hsome, hcall⟩ := hcond _ (by cases t.underlying <;> rfl) h
      rw [if_neg hsome]
      exact ⟨_, List.mem_singleton_self _, hcall⟩
    · rw [if_neg hdirect] at h ⊢
      split at h
      · exact absurd h (append_ne_nil (by decide))
      · rename_i hsome
        rw [if_neg hsome]
        exact ⟨_, List.mem_singleton_self _, h⟩

/-- A pointer or an interface is printed as `nil` for no other reason, unless it is an
interface whose value is printed so. -/
theorem printsNil_of_render {c : Call} (hc : c.nullable = true)
    (h : c.render (renderStep env read deeper) = "nil") :
    c.printsNil = true ∨ ∃ c' ∈ c.calls env read, c'.render deeper = "nil" := by
  unfold Call.nullable DType.isIface at hc
  unfold Call.render renderStep at h
  unfold Call.printsNil Call.calls
  cases hu : c.type.underlying with
  | ptr n b elem =>
    simp only [hu] at h ⊢
    unfold renderPointer at h
    dsimp only at h
    split at h
    · rename_i hzero
      exact .inl (beq_iff_eq.mpr hzero)
    · split at h
      · exact absurd h (append_ne_nil (by decide))
      · exact absurd h (append_ne_nil_left '&' (by decide) rfl)
  | struct n st b fs =>
    simp only [hu] at h hc ⊢
    cases hkind : structKind st fs with
    | iface nonEmpty =>
      simp only [hkind] at h ⊢
      rcases renderInterface_nil h with ⟨hlong, hzero⟩ | hcall
      · exact .inl (by simp [hlong, hzero])
      · exact .inr hcall
    | _ => simp [DType.isPtr, hkind] at hc
  | _ => simp [DType.isPtr, hu] at hc

end

/-! ## Bytes of memory -/

/-- The bytes are those at the address. -/
def IsSlice (m : Memory) (addr : UInt64) (data : List UInt8) : Prop :=
  data = m.slice addr data.length

namespace IsSlice
variable {m : Memory} {addr : UInt64} {data : List UInt8}

theorem slice (m : Memory) (addr : UInt64) (n : Nat) : IsSlice m addr (m.slice addr n) := by
  rw [IsSlice, Memory.slice_length]

theorem nil (m : Memory) (addr : UInt64) : IsSlice m addr [] := rfl

theorem take (h : IsSlice m addr data) (n : Nat) : IsSlice m addr (data.take n) := by
  rw [IsSlice, List.length_take]
  by_cases hn : n ≤ data.length
  · rw [Nat.min_eq_left hn]
    conv_lhs => rw [h, ← Nat.add_sub_cancel' hn]
    exact Memory.slice_take m addr n _
  · rw [List.take_of_length_le (by omega), Nat.min_eq_right (by omega)]
    exact h

theorem drop (h : IsSlice m addr data) (k : Nat) :
    IsSlice m (addr + UInt64.ofNat k) (data.drop k) := by
  rw [IsSlice, List.length_drop]
  by_cases hk : k ≤ data.length
  · conv_lhs => rw [h, ← Nat.add_sub_cancel' hk]
    exact Memory.slice_drop m addr k _
  · rw [List.drop_eq_nil_of_le (by omega), Nat.sub_eq_zero_of_le (by omega)]
    rfl

theorem word (h : IsSlice m addr data) (hlen : 8 ≤ data.length) :
    Lib.word data = m.wordAt addr := by
  rw [h]
  exact Memory.word_slice hlen

/-- A word that is cut off where memory goes on with zeros. -/
theorem word_cut (h : IsSlice m addr data)
    (hzero : ∀ i, data.length ≤ i → i < 8 → m (addr + UInt64.ofNat i) = 0) :
    Lib.word data = m.wordAt addr := by
  by_cases hlen : 8 ≤ data.length
  · exact h.word hlen
  · have hslice : m.slice addr 8 = data ++ List.replicate (8 - data.length) 0 := by
      refine List.ext_getElem (by simp; omega) fun i hi _ => ?_
      rw [Memory.slice_length] at hi
      rw [Memory.slice_getElem]
      by_cases hin : i < data.length
      · rw [List.getElem_append_left hin]
        have hbyte := List.getElem_of_eq h hin
        rw [hbyte, Memory.slice_getElem]
      · rw [List.getElem_append_right (by omega), List.getElem_replicate,
          hzero i (by omega) hi]
    rw [Memory.wordAt, hslice, Lib.word_append_zeros]

end IsSlice

/-- What the reader serves for these reads is memory. -/
def ReadsTrue (m : Memory) (read : MemoryReader) (rs : List Read) : Prop :=
  ∀ r ∈ rs, ∀ bs, read r.1 r.2 = some bs → bs = m.slice r.1 r.2

section
variable {m : Memory} {read : MemoryReader}

theorem ReadsTrue.left {rs rs' : List Read} (h : ReadsTrue m read (rs ++ rs')) :
    ReadsTrue m read rs := fun r hr => h r (List.mem_append_left rs' hr)

theorem ReadsTrue.right {rs rs' : List Read} (h : ReadsTrue m read (rs ++ rs')) :
    ReadsTrue m read rs' := fun r hr => h r (List.mem_append_right rs hr)

theorem ReadsTrue.isSlice {rs : List Read} (h : ReadsTrue m read rs) {addr : UInt64} {n : Nat}
    (hmem : (addr, n) ∈ rs) {bs : List UInt8} (hbs : read addr n = some bs) :
    IsSlice m addr bs := by
  rw [h _ hmem bs hbs]
  exact .slice m addr n

theorem objectBytes_isSlice {t : DType} {data : List UInt8} {addr : UInt64}
    (hreads : ReadsTrue m read (objectReads t addr)) (h : IsSlice m addr data) :
    IsSlice m addr (objectBytes t data addr read) := by
  unfold objectBytes
  dsimp only
  split
  · exact h
  rename_i hsize
  split
  · rename_i buf hbuf
    split at hbuf
    · rename_i hcond
      refine hreads.isSlice (n := t.size.toNat) ?_ hbuf
      rw [objectReads, if_pos ⟨by omega, hcond⟩]
      exact List.mem_singleton_self _
    · cases hbuf
  · split
    · exact h.take _
    · exact h

theorem fieldBytes_isSlice {off : Int} {t : DType} {data : List UInt8} {addr : UInt64}
    (hoff : 0 ≤ off) (hreads : ReadsTrue m read (fieldReads off t data addr))
    (h : IsSlice m addr data) :
    IsSlice m (addr + UInt64.ofInt off) (fieldBytes off t data addr read) := by
  have hown : IsSlice m (addr + UInt64.ofInt off) (data.drop off.toNat) := by
    have hdrop := h.drop off.toNat
    rwa [← Lib.ofInt_natCast, Int.toNat_of_nonneg hoff] at hdrop
  unfold fieldBytes
  dsimp only
  split
  · rename_i hcond
    cases hbs : read (addr + UInt64.ofInt off) t.size.toNat with
    | none => exact hown
    | some bs =>
      refine hreads.isSlice (n := t.size.toNat) ?_ hbs
      rw [fieldReads]
      rw [if_pos ⟨hoff, hcond⟩]
      exact List.mem_singleton_self _
  · exact hown

end

/-! ## Bytes of words -/

mutual

/-- The bytes of ABI words stand for the words that are rendered with `fuel` levels left:
pointers and the data words of interfaces are there, and the type word of an interface is zero
only when its word is. -/
def Matches (env : RenderEnv) : DType → Nat → List UInt64 → List UInt8 → Prop
  | .typedef _ t, fuel, ws, bytes => Matches env t fuel ws bytes
  | .qual _ t, fuel, ws, bytes => Matches env t fuel ws bytes
  | .struct _ s _ fs, fuel, ws, bytes =>
    match fuel, structKind s fs with
    | fuel + 1, .plain => FieldsMatch env fs fuel ws bytes
    | _ + 1, .iface _ =>
      (Lib.word bytes = 0 → ws.getD 0 0 = 0) ∧ Lib.word (bytes.drop 8) = ws.getD 1 0
    | _, _ => True
  | .ptr _ _ _, _, ws, bytes => Lib.word bytes = ws.getD 0 0
  | _, _, _, _ => True

def FieldsMatch (env : RenderEnv) : Fields → Nat → List UInt64 → List UInt8 → Prop
  | .nil, _, _, _ => True
  | .cons n _ t rest, fuel, ws, bytes =>
    (env.prints n = true → Matches env t fuel ws bytes) ∧
      FieldsMatch env rest fuel (ws.drop t.leafWords) (bytes.drop (8 * t.leafWords))

end

mutual

/-- The type word of each interface that is rendered with `fuel` levels left was not read as
zero without being zero. -/
def TypesRead (env : RenderEnv) : DType → Nat → List UInt64 → List UInt8 → Prop
  | .typedef _ t, fuel, ws, bytes => TypesRead env t fuel ws bytes
  | .qual _ t, fuel, ws, bytes => TypesRead env t fuel ws bytes
  | .struct _ s _ fs, fuel, ws, bytes =>
    match fuel, structKind s fs with
    | fuel + 1, .plain => FieldTypesRead env fs fuel ws bytes
    | _ + 1, .iface _ => Lib.word bytes = 0 → ws.getD 0 0 = 0
    | _, _ => True
  | _, _, _, _ => True

def FieldTypesRead (env : RenderEnv) : Fields → Nat → List UInt64 → List UInt8 → Prop
  | .nil, _, _, _ => True
  | .cons n _ t rest, fuel, ws, bytes =>
    (env.prints n = true → TypesRead env t fuel ws bytes) ∧
      FieldTypesRead env rest fuel (ws.drop t.leafWords) (bytes.drop (8 * t.leafWords))

end

theorem shows_underlying {bytes img : List UInt8} : ∀ t : DType,
    Shows t.underlying bytes img = Shows t bytes img
  | .typedef _ t => shows_underlying t
  | .qual _ t => shows_underlying t
  | .struct _ _ _ _ => rfl
  | .ptr _ _ _ => rfl
  | .basic _ _ _ => rfl
  | .func _ _ _ => rfl
  | .other _ _ _ => rfl

theorem matches_underlying {env : RenderEnv} {fuel : Nat} {ws : List UInt64}
    {bytes : List UInt8} :
    ∀ t : DType, Matches env t.underlying fuel ws bytes = Matches env t fuel ws bytes
  | .typedef _ t => matches_underlying t
  | .qual _ t => matches_underlying t
  | .struct _ _ _ _ => rfl
  | .ptr _ _ _ => rfl
  | .basic _ _ _ => rfl
  | .func _ _ _ => rfl
  | .other _ _ _ => rfl

theorem typesRead_underlying {env : RenderEnv} {fuel : Nat} {ws : List UInt64}
    {bytes : List UInt8} :
    ∀ t : DType, TypesRead env t.underlying fuel ws bytes = TypesRead env t fuel ws bytes
  | .typedef _ t => typesRead_underlying t
  | .qual _ t => typesRead_underlying t
  | .struct _ _ _ _ => rfl
  | .ptr _ _ _ => rfl
  | .basic _ _ _ => rfl
  | .func _ _ _ => rfl
  | .other _ _ _ => rfl

/-- A call with `fuel` levels left is given the bytes of the value at its home; bytes of a basic
type do not matter. -/
def Faithful (env : RenderEnv) (fuel : Nat) (m : Memory) (s : Spot) : Prop :=
  match s.home with
  | .words ws =>
    (∃ bytes, Shows s.call.type bytes s.call.data ∧ Matches env s.call.type fuel ws bytes) ∧
      (s.call.type.isPlain = true →
        laidOut s.call.type = true ∧ s.call.type.size ≤ s.call.data.length)
  | .memory a =>
    s.call.type.underlying.isPtr = true ∨ s.call.type.underlying.isStruct = true →
      s.call.addr = a ∧ IsSlice m a s.call.data

/-- A pointer that the end of its copy cuts off has nothing but zeros behind it, no interface
holds a struct with pointers that Go keeps in the data word or that the renderer looks for
there, and nothing is read at the offset of a struct that is held in words. -/
structure Spot.Usual (env : RenderEnv) (read : MemoryReader) (m : Memory) (s : Spot) :
    Prop where
  whole : s.call.type.underlying.isPtr = true → ∀ a, s.home = .memory a → ∀ i,
    s.call.data.length ≤ i → i < 8 → m (a + UInt64.ofNat i) = 0
  boxed : ∀ n st b fs nonEmpty, s.call.type.underlying = .struct n st b fs →
    structKind st fs = .iface nonEmpty →
    ∀ c ∈ interfaceCalls env nonEmpty s.call.data read, c.type.underlying.isStruct = true →
      c.type.hasNil env = true → typeIsDirect c.type = false ∧ pointerShaped c.type = false
  held : ∀ ws, s.home = .words ws → s.call.type.isPlain = true → s.call.addr ≠ 0 →
    read s.call.addr s.call.type.size.toNat = none

section
variable {env : RenderEnv} {fuel : Nat} {read : MemoryReader} {m : Memory} {s : Spot}

/-- A pointer is given its word. -/
theorem Faithful.pointer (h : Faithful env fuel m s) {n : String} {b : Int} {elem : DType}
    (hu : s.call.type.underlying = .ptr n b elem) (husual : s.Usual env read m) :
    Lib.word s.call.data = s.home.word m := by
  unfold Faithful at h
  cases hhome : s.home with
  | words ws =>
    simp only [hhome] at h
    obtain ⟨⟨bytes, hshows, hmatches⟩, -⟩ := h
    rw [← shows_underlying, hu, Shows] at hshows
    rw [← matches_underlying, hu, Matches] at hmatches
    rw [← Lib.word_take (Nat.le_refl 8), hshows, Lib.word_take (Nat.le_refl 8), hmatches]
    rfl
  | memory a =>
    simp only [hhome] at h
    exact (h (.inl (by rw [hu]; rfl))).2.word_cut (husual.whole (by rw [hu]; rfl) a hhome)

/-- An interface is given its data word, and no zero for its first word. -/
theorem Faithful.interface (h : Faithful env (fuel + 1) m s) {n st : String} {b : Int} {fs : Fields}
    {nonEmpty : Bool} (hu : s.call.type.underlying = .struct n st b fs)
    (hkind : structKind st fs = .iface nonEmpty) (hlen : 16 ≤ s.call.data.length) :
    (Lib.word s.call.data = 0 → s.home.word m = 0) ∧
      Lib.word (s.call.data.drop 8) = s.home.dataWord m := by
  unfold Faithful at h
  cases hhome : s.home with
  | words ws =>
    simp only [hhome] at h
    obtain ⟨⟨bytes, hshows, hmatches⟩, -⟩ := h
    rw [← shows_underlying, hu] at hshows
    rw [← matches_underlying, hu] at hmatches
    simp only [Shows, hkind, StructKind.words] at hshows
    simp only [Matches, hkind] at hmatches
    have hfirst := take_drop_congr (k := 0) (j := 8) hshows (by omega)
    have hsecond := take_drop_congr (k := 8) (j := 8) hshows (by omega)
    rw [List.drop_zero, List.drop_zero] at hfirst
    refine ⟨fun hzero => hmatches.1 ?_, ?_⟩
    · rw [← Lib.word_take (Nat.le_refl 8), ← hfirst, Lib.word_take (Nat.le_refl 8), hzero]
    · rw [← Lib.word_take (Nat.le_refl 8), hsecond, Lib.word_take (Nat.le_refl 8), hmatches.2]
      rfl
  | memory a =>
    simp only [hhome] at h
    obtain ⟨-, hslice⟩ := h (.inr (by rw [hu]; rfl))
    refine ⟨fun hzero => ?_, ?_⟩
    · rw [Home.word, ← hslice.word (by omega), hzero]
    · exact (hslice.drop 8).word (by rw [List.length_drop]; omega)

/-- A value whose bytes are its words. -/
theorem faithful_words {t : DType} {bytes : List UInt8} {addr : UInt64} {ws : List UInt64}
    (hplain : t.isPlain = false) (h : Matches env t fuel ws bytes) :
    Faithful env fuel m ⟨⟨t, bytes, addr⟩, .words ws⟩ := by
  refine ⟨⟨bytes, ?_, h⟩, fun hyes => absurd (hplain.symm.trans hyes) Bool.false_ne_true⟩
  dsimp only
  rw [← shows_underlying]
  unfold DType.isPlain at hplain
  cases hu : t.underlying with
  | struct n s b fs =>
    rw [hu] at hplain
    exact (shows_header (by simpa using hplain)).mpr rfl
  | ptr n b elem => exact rfl
  | typedef n t' => exact absurd hu (t.underlying_ne_typedef n t')
  | qual q t' => exact absurd hu (t.underlying_ne_qual q t')
  | _ => trivial

/-- What is printed as nil was nil. -/
theorem Faithful.nilReal (h : Faithful env (fuel + 1) m s) (husual : s.Usual env read m)
    (read' : MemoryReader) : s.NilReal env read' m := by
  constructor
  · intro hnil
    unfold Call.printsNil at hnil
    cases hu : s.call.type.underlying with
    | ptr n b elem =>
      simp only [hu, beq_iff_eq] at hnil
      rw [← h.pointer hu husual, hnil]
    | struct n st b fs =>
      simp only [hu] at hnil
      cases hkind : structKind st fs with
      | iface nonEmpty =>
        simp only [hkind, Bool.and_eq_true, decide_eq_true_eq, beq_iff_eq] at hnil
        exact (h.interface hu hkind hnil.1).1 hnil.2
      | _ => simp only [hkind, Bool.false_eq_true] at hnil
    | _ => simp only [hu, Bool.false_eq_true] at hnil
  · intro hnil
    unfold Call.printsNilOf at hnil
    cases hu : s.call.type.underlying with
    | struct n st b fs =>
      simp only [hu] at hnil
      cases hkind : structKind st fs with
      | iface nonEmpty =>
        simp only [hkind, Bool.and_eq_true, decide_eq_true_eq, beq_iff_eq] at hnil
        rw [← (h.interface hu hkind hnil.1.1.1).2, hnil.1.2]
      | _ => simp only [hkind, Bool.false_eq_true] at hnil
    | _ => simp only [hu, Bool.false_eq_true] at hnil

/-! ## Parts -/

theorem pointerCalls_cases {elem : DType} {data : List UInt8} {c : Call}
    (h : c ∈ pointerCalls elem data read) :
    (Lib.word data, elem.size.toNat) ∈ pointerReads elem data ∧
      ∃ buf, read (Lib.word data) elem.size.toNat = some buf ∧ c = ⟨elem, buf, Lib.word data⟩ := by
  unfold pointerCalls at h
  split at h
  · cases h
  · rename_i hcond
    rw [pointerReads, if_neg hcond]
    refine ⟨List.mem_singleton_self _, ?_⟩
    split at h
    · cases h
    · rename_i buf hbuf
      exact ⟨buf, hbuf, List.mem_singleton.mp h⟩

/-- The value of an interface: its data word, or what is read at the data word. -/
theorem interfaceCalls_cases {nonEmpty : Bool} {data : List UInt8} {c : Call}
    (h : c ∈ interfaceCalls env nonEmpty data read) :
    16 ≤ data.length ∧ c.addr = Lib.word (data.drop 8) ∧
      (typeIsDirect c.type = true ∧ c.data = wordBytes c.addr ∨
        typeIsDirect c.type = false ∧ c.data = objectBytes c.type [] c.addr read ∧ c.data ≠ [] ∧
          ∀ r ∈ objectReads c.type c.addr, r ∈ interfaceReads env nonEmpty data read) := by
  unfold interfaceCalls at h
  split at h
  · cases h
  rename_i hcond
  rw [interfaceReads, if_neg hcond]
  dsimp only at h
  refine ⟨by omega, ?_⟩
  split at h
  · cases h
  rename_i t ht
  split at h
  · rename_i hdirect
    split at h
    · cases h
    · obtain rfl := List.mem_singleton.mp h
      exact ⟨rfl, .inl ⟨hdirect, rfl⟩⟩
  · rename_i hdirect
    split at h
    · cases h
    · rename_i hsome
      obtain rfl := List.mem_singleton.mp h
      refine ⟨rfl, .inr ⟨Bool.eq_false_iff.mpr hdirect, rfl, ?_, fun r hr => ?_⟩⟩
      · exact fun hnil => hsome (List.isEmpty_iff.mpr hnil)
      · rw [if_neg hdirect]
        exact List.mem_append_right _ hr

theorem fieldCalls_cases {off : Int} {t : DType} {data : List UInt8} {addr : UInt64} {c : Call}
    (h : c ∈ fieldCalls off t data addr read) :
    0 ≤ off ∧ c = ⟨t, fieldBytes off t data addr read, addr + UInt64.ofInt off⟩ := by
  unfold fieldCalls at h
  split at h
  · cases h
  · rename_i hcond
    exact ⟨by omega, List.mem_singleton.mp h⟩

theorem pointee_faithful (h : Faithful env (fuel + 1) m s) (husual : s.Usual env read m)
    (hreads : ReadsTrue m read (s.call.ownReads env read)) {n : String} {b : Int} {elem : DType}
    (hu : s.call.type.underlying = .ptr n b elem) :
    ∀ s' ∈ s.parts env read m, Faithful env fuel m s' := by
  rw [Call.ownReads, hu] at hreads
  rw [parts_pointer hu]
  intro s' hs'
  obtain ⟨c, hc, rfl⟩ := List.mem_map.mp hs'
  obtain ⟨hmem, buf, hbuf, rfl⟩ := pointerCalls_cases hc
  have hword := h.pointer hu husual
  exact fun _ => ⟨hword, hword ▸ hreads.isSlice hmem hbuf⟩

theorem pointerShaped_underlying : ∀ t : DType, pointerShaped t.underlying = pointerShaped t
  | .typedef _ t => by
    rw [pointerShaped]
    exact pointerShaped_underlying t
  | .qual _ t => by
    rw [pointerShaped]
    exact pointerShaped_underlying t
  | .struct _ _ _ _ => rfl
  | .ptr _ _ _ => rfl
  | .basic _ _ _ => rfl
  | .func _ _ _ => rfl
  | .other _ _ _ => rfl

theorem direct_of_isPtr {t : DType} (h : t.underlying.isPtr = true) :
    typeIsDirect t = true ∧ pointerShaped t = true := by
  rw [← pointerShaped_underlying]
  unfold typeIsDirect
  cases hu : t.underlying with
  | ptr n b elem => exact ⟨rfl, rfl⟩
  | _ => rw [hu] at h; cases h

theorem dynamic_faithful (h : Faithful env (fuel + 1) m s) (husual : s.Usual env read m)
    (hreads : ReadsTrue m read (s.call.ownReads env read)) {n st : String} {b : Int} {fs : Fields}
    {nonEmpty : Bool} (hu : s.call.type.underlying = .struct n st b fs)
    (hkind : structKind st fs = .iface nonEmpty) :
    ∀ s' ∈ s.parts env read m, s'.call.type.hasNil env = true → Faithful env fuel m s' := by
  simp only [Call.ownReads, hu, hkind] at hreads
  rw [parts_interface hu hkind]
  intro s' hs' hnil
  obtain ⟨c, hc, rfl⟩ := List.mem_map.mp hs'
  obtain ⟨hlen, haddr, hbytes⟩ := interfaceCalls_cases hc
  have hboxed := fun hstruct => husual.boxed n st b fs nonEmpty hu hkind c hc hstruct hnil
  obtain ⟨-, hword⟩ := h.interface hu hkind hlen
  rw [← hword, ← haddr]
  cases hshaped : pointerShaped c.type with
  | true =>
    have hhome : dynamicHome c.type c.addr = .words [c.addr] := by rw [dynamicHome, hshaped]; rfl
    have hstruct : c.type.underlying.isStruct = false :=
      Bool.eq_false_iff.mpr fun hyes => by rw [(hboxed hyes).2] at hshaped; cases hshaped
    rw [hhome]
    refine ⟨⟨c.data, ?_⟩, fun hplain => ?_⟩
    · rw [← shows_underlying, ← matches_underlying]
      cases ht : c.type.underlying with
      | ptr n b elem =>
        have hdirect := (direct_of_isPtr (t := c.type) (by rw [ht]; rfl)).1
        have hdata : c.data = wordBytes c.addr := by
          rcases hbytes with hbytes | hbytes
          · exact hbytes.2
          · rw [hbytes.1] at hdirect
            cases hdirect
        refine ⟨rfl, ?_⟩
        rw [Matches, hdata, Lib.word_wordBytes]
        rfl
      | struct n s b fs => rw [ht] at hstruct; cases hstruct
      | typedef n t => exact absurd ht (c.type.underlying_ne_typedef n t)
      | qual q t => exact absurd ht (c.type.underlying_ne_qual q t)
      | _ => exact ⟨trivial, trivial⟩
    · unfold DType.isPlain at hplain
      cases ht : c.type.underlying with
      | struct n s b fs => rw [ht] at hstruct; cases hstruct
      | _ => rw [ht] at hplain; cases hplain
  | false =>
    have hhome : dynamicHome c.type c.addr = .memory c.addr := by rw [dynamicHome, hshaped]; rfl
    rw [hhome]
    rintro (hptr | hstruct)
    · rw [(direct_of_isPtr hptr).2] at hshaped
      cases hshaped
    · have hdirect := (hboxed hstruct).1
      rcases hbytes with hbytes | ⟨-, hdata, -, hmem⟩
      · rw [hbytes.1] at hdirect
        cases hdirect
      · refine ⟨rfl, ?_⟩
        have hobject : ReadsTrue m read (objectReads c.type c.addr) :=
          fun r hr => hreads r (hmem r hr)
        have hslice := objectBytes_isSlice hobject (.nil m c.addr)
        rwa [← hdata] at hslice

theorem fields_in_memory {data : List UInt8} {a : UInt64} (hslice : IsSlice m a data) (fs : Fields)
    (hreads : ReadsTrue m read (fieldsReads env data a fs)) :
    ∀ s' ∈ fieldsParts env data a read (.memory a) fs, Faithful env fuel m s' := by
  cases fs with
  | nil => exact fun s' hs' => absurd hs' List.not_mem_nil
  | cons n off t rest =>
    rw [fieldsReads] at hreads
    rw [fieldsParts]
    refine List.forall_mem_append.mpr ⟨?_, fields_in_memory hslice rest hreads.right⟩
    split
    · rename_i hprints
      have hfield := hreads.left
      rw [if_pos hprints] at hfield
      intro s' hs'
      obtain ⟨c, hc, rfl⟩ := List.mem_map.mp hs'
      obtain ⟨hoff, rfl⟩ := fieldCalls_cases hc
      exact fun _ => ⟨rfl, fieldBytes_isSlice hoff hfield hslice⟩
    · exact fun s' hs' => absurd hs' List.not_mem_nil

/-- A field whose bytes are all there is not read. -/
theorem fieldBytes_own {t : DType} {data : List UInt8} {a : UInt64} {k : Nat}
    (h : t.size ≤ (data.drop k).length) : fieldBytes k t data a read = data.drop k := by
  unfold fieldBytes
  rw [Int.toNat_natCast]
  exact if_neg fun hcond => absurd hcond.2.1 (by omega)

theorem fields_in_words {data : List UInt8} {a : UInt64} :
    ∀ (fs : Fields) (lo hi : Int) (ws : List UInt64) (bytes : List UInt8), 0 ≤ lo →
    fieldsLaidOut lo hi fs = true → hi ≤ data.length → FieldsShow fs bytes data →
    FieldsMatch env fs fuel ws bytes →
    ∀ s' ∈ fieldsParts env data a read (.words ws) fs, Faithful env fuel m s'
  | .nil, _, _, _, _, _, _, _, _, _ => nofun
  | .cons n off t rest, lo, hi, ws, bytes, hlo, hlaid, hlen, hshow, hmatch => by
    simp only [fieldsLaidOut, Bool.and_eq_true, decide_eq_true_eq] at hlaid
    obtain ⟨⟨⟨hoff, hend⟩, ht⟩, hrest⟩ := hlaid
    have hpos := laidOut_size_pos t ht
    rw [FieldsShow] at hshow
    rw [FieldsMatch] at hmatch
    rw [fieldsParts]
    refine List.forall_mem_append.mpr ⟨?_, fields_in_words rest (off + t.size) hi
      (ws.drop t.leafWords) _ (by omega) hrest hlen hshow.2 hmatch.2⟩
    split
    · rename_i hprints
      intro s' hs'
      obtain ⟨c, hc, rfl⟩ := List.mem_map.mp hs'
      obtain ⟨hoff', rfl⟩ := fieldCalls_cases hc
      obtain ⟨k, rfl⟩ := Int.eq_ofNat_of_zero_le hoff'
      have hlong : t.size ≤ (data.drop k).length := by rw [List.length_drop]; omega
      rw [fieldBytes_own hlong]
      refine ⟨⟨bytes, ?_, hmatch.1 hprints⟩, fun _ => ⟨ht, hlong⟩⟩
      have hshown := hshow.1
      rwa [Int.toNat_natCast] at hshown
    · exact nofun

/-- A struct held in words is not read again. -/
theorem objectBytes_held {c : Call} (hlaid : laidOut c.type = true)
    (hwhole : c.type.size ≤ c.data.length)
    (hheld : c.addr ≠ 0 → read c.addr c.type.size.toNat = none) {t : DType}
    (ht : t.size = c.type.size) : objectBytes t c.data c.addr read = c.data.take t.size.toNat := by
  have hpos := laidOut_size_pos c.type hlaid
  rw [← ht] at hwhole hheld hpos
  have hnone : (if c.addr ≠ 0 ∧ t.size ≤ maxReadSize then read c.addr t.size.toNat else none) =
      none := by
    split
    · rename_i hcond
      exact hheld hcond.1
    · rfl
  unfold objectBytes
  dsimp only
  rw [if_neg (by omega), hnone]
  exact if_pos hwhole

theorem laidOut_underlying : ∀ t : DType, laidOut t.underlying = laidOut t
  | .typedef _ t => by
    rw [laidOut]
    exact laidOut_underlying t
  | .qual _ t => by
    rw [laidOut]
    exact laidOut_underlying t
  | .struct _ _ _ _ => rfl
  | .ptr _ _ _ => rfl
  | .basic _ _ _ => rfl
  | .func _ _ _ => rfl
  | .other _ _ _ => rfl

/-- A value in words as the renderer is given it. -/
structure InWords (s : Spot) (ws : List UInt64) (bytes : List UInt8) : Prop where
  home : s.home = .words ws
  shows : Shows s.call.type bytes s.call.data
  laidOut : laidOut s.call.type = true
  whole : s.call.type.size ≤ s.call.data.length

/-- The fields of a struct in words are cut out of its bytes. -/
theorem InWords.fields {ws : List UInt64} {bytes : List UInt8} (h : InWords s ws bytes)
    (husual : s.Usual env read m) {n st : String} {b : Int} {fs : Fields}
    (hu : s.call.type.underlying = .struct n st b fs) (hkind : structKind st fs = .plain) :
    ∃ data, s.parts env read m = fieldsParts env data s.call.addr read (.words ws) fs ∧
      fieldsLaidOut 0 b fs = true ∧ b ≤ data.length ∧ FieldsShow fs bytes data := by
  have hplain : s.call.type.isPlain = true := by simp [DType.isPlain, hu, hkind]
  have hlaid := h.laidOut
  have hwhole := h.whole
  have hshows := h.shows
  have hsize : b = s.call.type.size := by
    rw [← DType.size_underlying s.call.type, hu]
    rfl
  rw [← laidOut_underlying, hu, Uprobe.laidOut, hkind] at hlaid
  simp only [Bool.and_eq_true, decide_eq_true_eq] at hlaid
  rw [← shows_underlying, hu, Shows, hkind] at hshows
  rw [← hsize] at hwhole
  refine ⟨s.call.data.take b.toNat, ?_, hlaid.2, ?_, ?_⟩
  · rw [parts_plain hu hkind, h.home,
      objectBytes_held h.laidOut h.whole (husual.held ws h.home hplain)
        (show (DType.struct n st b fs).size = _ from hsize)]
    rfl
  · rw [List.length_take]
    omega
  · refine fieldsShow_congr fs 0 b (Int.le_refl 0) hlaid.2 ?_ hshows
    rw [List.take_take, Nat.min_self]

theorem fields_faithful (h : Faithful env (fuel + 1) m s) (husual : s.Usual env read m)
    (hreads : ReadsTrue m read (s.call.ownReads env read)) {n st : String} {b : Int} {fs : Fields}
    (hu : s.call.type.underlying = .struct n st b fs) (hkind : structKind st fs = .plain) :
    ∀ s' ∈ s.parts env read m, Faithful env fuel m s' := by
  unfold Faithful at h
  cases hhome : s.home with
  | memory a =>
    simp only [hhome] at h
    obtain ⟨rfl, hslice⟩ := h (.inr (by rw [hu]; rfl))
    simp only [Call.ownReads, hu, hkind] at hreads
    rw [parts_plain hu hkind, hhome]
    exact fields_in_memory (objectBytes_isSlice hreads.left hslice) fs hreads.right
  | words ws =>
    simp only [hhome] at h
    obtain ⟨⟨bytes, hshows, hmatches⟩, hstanding⟩ := h
    obtain ⟨hlaid, hwhole⟩ := hstanding (by simp [DType.isPlain, hu, hkind])
    have hin : InWords s ws bytes := ⟨hhome, hshows, hlaid, hwhole⟩
    obtain ⟨data, hparts, hfields, hlong, hshow⟩ := hin.fields husual hu hkind
    rw [← matches_underlying, hu] at hmatches
    simp only [Matches, hkind] at hmatches
    rw [hparts]
    exact fields_in_words fs 0 b ws bytes (Int.le_refl 0) hfields hlong hshow hmatches

/-- The parts of a value are given their own bytes as the value is. -/
theorem parts_faithful (h : Faithful env (fuel + 1) m s) (husual : s.Usual env read m)
    (hreads : ReadsTrue m read (s.call.ownReads env read)) :
    ∀ s' ∈ s.parts env read m, s'.call.type.hasNil env = true → Faithful env fuel m s' := by
  cases hu : s.call.type.underlying with
  | ptr n b elem => exact fun s' hs' _ => pointee_faithful h husual hreads hu s' hs'
  | struct n st b fs =>
    cases hkind : structKind st fs with
    | iface nonEmpty => exact dynamic_faithful h husual hreads hu hkind
    | plain => exact fun s' hs' _ => fields_faithful h husual hreads hu hkind s' hs'
    | _ =>
      simp only [Spot.parts, hu, hkind]
      exact nofun
  | _ =>
    simp only [Spot.parts, hu]
    exact nofun

theorem fieldsParts_hasNil {data : List UInt8} {addr : UInt64} {h : Home} {fs : Fields} {p : Spot}
    (hp : p ∈ fieldsParts env data addr read h fs) (hnil : p.call.type.hasNil env = true) :
    fs.hasNil env = true := by
  cases fs with
  | nil => exact absurd hp List.not_mem_nil
  | cons n off t rest =>
    rw [fieldsParts] at hp
    rw [Fields.hasNil]
    rcases List.mem_append.mp hp with hp | hp
    · split at hp
      · rename_i hprints
        obtain ⟨c, hc, rfl⟩ := List.mem_map.mp hp
        obtain ⟨-, rfl⟩ := fieldCalls_cases hc
        rw [hprints, hnil]
        rfl
      · exact absurd hp List.not_mem_nil
    · rw [fieldsParts_hasNil hp hnil, Bool.or_true]

/-- A value with a pointer or an interface in one of its parts has one itself. -/
theorem parts_hasNil {p : Spot} (hp : p ∈ s.parts env read m)
    (hnil : p.call.type.hasNil env = true) : s.call.type.hasNil env = true := by
  rw [← hasNil_underlying]
  cases hu : s.call.type.underlying with
  | ptr n b elem => rfl
  | struct n st b fs =>
    rw [DType.hasNil]
    cases hkind : structKind st fs with
    | iface nonEmpty => rfl
    | plain =>
      rw [parts_plain hu hkind] at hp
      exact fieldsParts_hasNil hp hnil
    | _ => simp only [Spot.parts, hu, hkind, List.not_mem_nil] at hp
  | _ => simp only [Spot.parts, hu, List.not_mem_nil] at hp

/-- The parts with a pointer or an interface. -/
def Spot.nilParts (env : RenderEnv) (read : MemoryReader) (m : Memory) (s : Spot) : List Spot :=
  (s.parts env read m).filter (·.call.type.hasNil env)

/-- The values with a pointer or an interface that are rendered with `fuel` levels left. -/
def Spot.nilVisited (env : RenderEnv) (read : MemoryReader) (m : Memory) : Nat → Spot → List Spot
  | 0, _ => []
  | fuel + 1, s => s :: (s.nilParts env read m).flatMap (Spot.nilVisited env read m fuel)

/-- They are reached through values with a pointer or an interface. -/
theorem mem_nilVisited {fuel : Nat} {s' : Spot} (hs' : s' ∈ s.visited env read m fuel)
    (hnil : s'.call.type.hasNil env = true) :
    s' ∈ s.nilVisited env read m fuel ∧ s.call.type.hasNil env = true := by
  induction fuel generalizing s with
  | zero => exact absurd hs' List.not_mem_nil
  | succ fuel ih =>
    rw [Spot.visited] at hs'
    rw [Spot.nilVisited]
    rcases List.mem_cons.mp hs' with rfl | hs'
    · exact ⟨List.mem_cons_self, hnil⟩
    · obtain ⟨p, hp, hs'⟩ := List.mem_flatMap.mp hs'
      obtain ⟨hmem, hpart⟩ := ih hs'
      have hpart' : p ∈ s.nilParts env read m := List.mem_filter.mpr ⟨hp, hpart⟩
      exact ⟨List.mem_cons_of_mem _ (List.mem_flatMap.mpr ⟨p, hpart', hmem⟩), parts_hasNil hp hpart⟩

/-- A value without pointers and interfaces is not printed as nil. -/
theorem nilReal_of_not_hasNil (h : ¬ s.call.type.hasNil env = true) : s.NilReal env read m := by
  rw [← hasNil_underlying] at h
  constructor
  · intro hnil
    unfold Call.printsNil at hnil
    cases hu : s.call.type.underlying with
    | ptr n b elem => exact absurd (by rw [hu]; rfl) h
    | struct n st b fs =>
      rw [hu, DType.hasNil] at h
      simp only [hu] at hnil
      cases hkind : structKind st fs with
      | iface nonEmpty => exact absurd (by rw [hkind]) h
      | _ => simp only [hkind, Bool.false_eq_true] at hnil
    | _ => simp only [hu, Bool.false_eq_true] at hnil
  · intro hnil
    unfold Call.printsNilOf at hnil
    cases hu : s.call.type.underlying with
    | struct n st b fs =>
      rw [hu, DType.hasNil] at h
      simp only [hu] at hnil
      cases hkind : structKind st fs with
      | iface nonEmpty => exact absurd (by rw [hkind]) h
      | _ => simp only [hkind, Bool.false_eq_true] at hnil
    | _ => simp only [hu, Bool.false_eq_true] at hnil

/-! ## The walk over memory -/

/-- The reader that serves memory wherever a reader serves anything. -/
def exactRead (m : Memory) (read : MemoryReader) : MemoryReader := fun addr n =>
  (read addr n).map fun _ => m.slice addr n

theorem exactRead_true (rs : List Read) : ReadsTrue m (exactRead m read) rs := by
  intro r _ bs hbs
  obtain ⟨_, -, rfl⟩ := Option.map_eq_some_iff.mp hbs
  rfl

/-- On the walk over memory every value is given its own bytes. -/
theorem nilVisited_faithful (h : Faithful env fuel m s)
    (husual : ∀ s' ∈ s.nilVisited env (exactRead m read) m fuel,
      s'.Usual env (exactRead m read) m) :
    ∀ s' ∈ s.nilVisited env (exactRead m read) m fuel, ∃ n, Faithful env (n + 1) m s' := by
  induction fuel generalizing s with
  | zero => exact nofun
  | succ fuel ih =>
    rw [Spot.nilVisited] at husual ⊢
    obtain ⟨hself, hrest⟩ := List.forall_mem_cons.mp husual
    refine List.forall_mem_cons.mpr ⟨⟨fuel, h⟩, fun s' hs' => ?_⟩
    obtain ⟨p, hp, hs'⟩ := List.mem_flatMap.mp hs'
    obtain ⟨hpart, hnil⟩ := List.mem_filter.mp hp
    exact ih (parts_faithful h hself (exactRead_true _) p hpart hnil)
      (fun q hq => hrest q (List.mem_flatMap.mpr ⟨p, hp, hq⟩)) s' hs'

theorem nilVisited_subset {fuel : Nat} :
    s.nilVisited env read m fuel ⊆ s.visited env read m fuel := by
  induction fuel generalizing s with
  | zero => exact List.Subset.refl _
  | succ fuel ih =>
    rw [Spot.nilVisited, Spot.visited]
    refine List.cons_subset_cons _ fun s' hs' => ?_
    obtain ⟨p, hp, hs'⟩ := List.mem_flatMap.mp hs'
    exact List.mem_flatMap.mpr ⟨p, (List.mem_filter.mp hp).1, ih hs'⟩

/-- Readers that give the same parts on a walk make the same walk. -/
theorem nilVisited_congr {read' : MemoryReader} {fuel : Nat}
    (h : ∀ s' ∈ s.nilVisited env read m fuel,
      s'.nilParts env read' m = s'.nilParts env read m) :
    s.nilVisited env read' m fuel = s.nilVisited env read m fuel := by
  induction fuel generalizing s with
  | zero => rfl
  | succ fuel ih =>
    rw [Spot.nilVisited] at h
    obtain ⟨hself, hrest⟩ := List.forall_mem_cons.mp h
    rw [Spot.nilVisited, Spot.nilVisited, hself]
    refine congrArg (s :: ·) (List.flatMap_congr fun p hp => ih fun s' hs' => ?_)
    exact hrest s' (List.mem_flatMap.mpr ⟨p, hp, hs'⟩)

/-! ## Type words -/

theorem typesRead_zero {ws : List UInt64} {bytes : List UInt8} :
    ∀ t : DType, TypesRead env t 0 ws bytes
  | .typedef _ t => typesRead_zero t
  | .qual _ t => typesRead_zero t
  | .struct _ _ _ _ => trivial
  | .ptr _ _ _ => trivial
  | .basic _ _ _ => trivial
  | .func _ _ _ => trivial
  | .other _ _ _ => trivial

mutual

theorem typesRead_of_not_hasNil {ws : List UInt64} {bytes : List UInt8} :
    ∀ (t : DType) (fuel : Nat), ¬ t.hasNil env = true → TypesRead env t fuel ws bytes
  | .typedef _ t, fuel, h => by
    rw [DType.hasNil] at h
    exact typesRead_of_not_hasNil t fuel h
  | .qual _ t, fuel, h => by
    rw [DType.hasNil] at h
    exact typesRead_of_not_hasNil t fuel h
  | .struct _ s _ fs, fuel, h => by
    cases fuel with
    | zero => exact typesRead_zero _
    | succ fuel =>
      rw [DType.hasNil] at h
      cases hkind : structKind s fs with
      | plain =>
        simp only [TypesRead, hkind]
        rw [hkind] at h
        exact fieldTypesRead_of_not_hasNil fs fuel h
      | iface nonEmpty => exact absurd (by rw [hkind]) h
      | _ => simp only [TypesRead, hkind]
  | .ptr _ _ _, _, _ => trivial
  | .basic _ _ _, _, _ => trivial
  | .func _ _ _, _, _ => trivial
  | .other _ _ _, _, _ => trivial

theorem fieldTypesRead_of_not_hasNil {ws : List UInt64} {bytes : List UInt8} :
    ∀ (fs : Fields) (fuel : Nat), ¬ fs.hasNil env = true → FieldTypesRead env fs fuel ws bytes
  | .nil, _, _ => trivial
  | .cons n _ t rest, fuel, h => by
    rw [Fields.hasNil, Bool.or_eq_true, Bool.and_eq_true, not_or, not_and] at h
    exact ⟨fun hprints => typesRead_of_not_hasNil t fuel (h.1 hprints),
      fieldTypesRead_of_not_hasNil rest fuel h.2⟩

end

theorem typesRead_of_not_struct {t : DType} {ws : List UInt64} {bytes : List UInt8}
    (hiface : ¬ t.isIface = true) (hplain : ¬ t.isPlain = true) :
    TypesRead env t fuel ws bytes := by
  rw [← typesRead_underlying]
  unfold DType.isIface at hiface
  unfold DType.isPlain at hplain
  cases hu : t.underlying with
  | struct n s b fs =>
    rw [hu] at hiface hplain
    cases fuel with
    | zero => exact typesRead_zero _
    | succ fuel =>
      cases hkind : structKind s fs with
      | plain => exact absurd (by simp [hkind]) hplain
      | iface nonEmpty => exact absurd (by simp [hkind]) hiface
      | _ => simp only [TypesRead, hkind]
  | typedef n t' => exact absurd hu (t.underlying_ne_typedef n t')
  | qual q t' => exact absurd hu (t.underlying_ne_qual q t')
  | _ => trivial

theorem fieldTypesRead_of_parts {data : List UInt8} {a : UInt64} :
    ∀ (fs : Fields) (lo hi : Int) (ws : List UInt64) (bytes : List UInt8), 0 ≤ lo →
    fieldsLaidOut lo hi fs = true → hi ≤ data.length → FieldsShow fs bytes data →
    (∀ p ∈ fieldsParts env data a read (.words ws) fs, p.call.type.hasNil env = true →
      ∀ ws bytes, InWords p ws bytes → TypesRead env p.call.type fuel ws bytes) →
    FieldTypesRead env fs fuel ws bytes
  | .nil, _, _, _, _, _, _, _, _, _ => trivial
  | .cons n off t rest, lo, hi, ws, bytes, hlo, hlaid, hlen, hshow, hparts => by
    simp only [fieldsLaidOut, Bool.and_eq_true, decide_eq_true_eq] at hlaid
    obtain ⟨⟨⟨hoff, hend⟩, ht⟩, hrest⟩ := hlaid
    have hpos := laidOut_size_pos t ht
    rw [FieldsShow] at hshow
    rw [fieldsParts] at hparts
    refine ⟨fun hprints => ?_, fieldTypesRead_of_parts rest (off + t.size) hi _ _ (by omega) hrest
      hlen hshow.2 fun p hp => hparts p (List.mem_append_right _ hp)⟩
    by_cases hnil : t.hasNil env = true
    · obtain ⟨k, rfl⟩ := Int.eq_ofNat_of_zero_le (hlo.trans hoff)
      have hlong : t.size ≤ (data.drop k).length := by rw [List.length_drop]; omega
      have hown : fieldBytes k t data a read = data.drop k := fieldBytes_own hlong
      have hcall : fieldCalls k t data a read = [⟨t, data.drop k, a + UInt64.ofInt k⟩] := by
        rw [fieldCalls, hown, if_neg]
        rintro (hneg | hempty)
        · omega
        · rw [List.isEmpty_iff.mp hempty, List.length_nil] at hlong
          omega
      refine hparts ⟨⟨t, data.drop k, a + UInt64.ofInt k⟩, .words ws⟩ ?_ hnil ws bytes
        ⟨rfl, ?_, ht, hlong⟩
      · rw [if_pos hprints, hcall]
        exact List.mem_append_left _ (List.mem_singleton_self _)
      · have hshown := hshow.1
        rwa [Int.toNat_natCast] at hshown
    · exact typesRead_of_not_hasNil t fuel hnil

/-- An interface in words whose first word is zero is printed as nil. -/
theorem InWords.printsNil {ws : List UInt64} {bytes : List UInt8} (h : InWords s ws bytes)
    {n st : String} {b : Int} {fs : Fields} {nonEmpty : Bool}
    (hu : s.call.type.underlying = .struct n st b fs) (hkind : structKind st fs = .iface nonEmpty)
    (hzero : Lib.word bytes = 0) : s.call.printsNil = true := by
  have hheader : structKind st fs ≠ .plain := by
    intro hplain
    cases hkind.symm.trans hplain
  have hsize : b = s.call.type.size := by
    rw [← DType.size_underlying s.call.type, hu]
    rfl
  have hlaid := h.laidOut
  have hshows := h.shows
  have hwhole := h.whole
  rw [← laidOut_underlying, hu] at hlaid
  have hwords := laidOut_header hheader hlaid
  rw [hkind] at hwords
  rw [← shows_underlying, hu, shows_header hheader, hkind] at hshows
  have htwo : (StructKind.iface nonEmpty).words = 2 := rfl
  have hfirst := take_drop_congr (k := 0) (j := 8) hshows (by omega)
  rw [List.drop_zero, List.drop_zero] at hfirst
  have hword : Lib.word s.call.data = 0 := by
    rw [← Lib.word_take (Nat.le_refl 8), hfirst, Lib.word_take (Nat.le_refl 8), hzero]
  have hlong : 16 ≤ s.call.data.length := by omega
  rw [Call.printsNil, hu]
  dsimp only
  rw [hkind]
  dsimp only
  rw [hword, decide_eq_true hlong]
  rfl

/-- Where every printed nil was nil, the type words of interfaces held in words were read. -/
theorem InWords.typesRead {ws : List UInt64} {bytes : List UInt8} (h : InWords s ws bytes)
    (husual : ∀ s' ∈ s.nilVisited env read m fuel, s'.Usual env read m)
    (hnil : ∀ s' ∈ s.nilVisited env read m fuel, s'.call.printsNil = true → s'.home.word m = 0) :
    TypesRead env s.call.type fuel ws bytes := by
  rw [← typesRead_underlying]
  induction fuel generalizing s ws bytes with
  | zero => exact typesRead_zero _
  | succ fuel ih =>
    rw [Spot.nilVisited] at husual hnil
    obtain ⟨hself, hrest⟩ := List.forall_mem_cons.mp husual
    obtain ⟨hzero, hparts⟩ := List.forall_mem_cons.mp hnil
    cases hu : s.call.type.underlying with
    | struct n st b fs =>
      cases hkind : structKind st fs with
      | plain =>
        obtain ⟨data, hown, hfields, hlong, hshow⟩ := h.fields hself hu hkind
        simp only [TypesRead, hkind]
        refine fieldTypesRead_of_parts fs 0 b ws bytes (Int.le_refl 0) hfields hlong hshow
          fun p (hp : p ∈ fieldsParts env data s.call.addr read _ fs) hpnil ws' bytes' hin => ?_
        have hpart : p ∈ s.nilParts env read m := by
          rw [← hown] at hp
          exact List.mem_filter.mpr ⟨hp, hpnil⟩
        rw [← typesRead_underlying]
        exact ih hin (fun q hq => hrest q (List.mem_flatMap.mpr ⟨p, hpart, hq⟩))
          fun q hq => hparts q (List.mem_flatMap.mpr ⟨p, hpart, hq⟩)
      | iface nonEmpty =>
        simp only [TypesRead, hkind]
        intro hbytes
        have hword := hzero (h.printsNil hu hkind hbytes)
        rwa [h.home] at hword
      | _ => simp only [TypesRead, hkind]
    | typedef n t => exact absurd hu (s.call.type.underlying_ne_typedef n t)
    | qual q t => exact absurd hu (s.call.type.underlying_ne_qual q t)
    | _ => trivial

end

end GoFtrace.Uprobe
