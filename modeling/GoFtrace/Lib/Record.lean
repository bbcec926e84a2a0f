import GoFtrace.Lib.Bytes

/-!
# Records in memory and on the wire

The types of records that two languages share. In memory each field of a record stands at the
next offset that its alignment allows; on the wire the fields follow each other without a gap.

* `explicit_places`: with the gaps made explicit, the fields stand where they stood.
* `unmarshal_explicit`: then reading from the wire reads what stands in memory.
* `marshal_loads`: and what is written to the wire stands in memory.
-/

namespace GoFtrace.Lib

mutual

/-- Integers of a width in bytes, arrays and records. -/
inductive WireType where
  | int (width : Nat)
  | array (n : Nat) (t : WireType)
  | struct (fields : WireFields)

inductive WireFields where
  | nil
  | cons (t : WireType) (rest : WireFields)
  /-- Bytes that nobody reads. -/
  | blank (n : Nat) (rest : WireFields)

end

/-- The next multiple of an alignment. -/
def roundUp (n align : Nat) : Nat := n + (align - n % align) % align

theorem le_roundUp (n align : Nat) : n ≤ roundUp n align := Nat.le_add_right _ _

theorem roundUp_mod (n : Nat) {align : Nat} (h : 0 < align) : roundUp n align % align = 0 := by
  have hle := Nat.le_of_lt (Nat.mod_lt n h)
  rw [roundUp, Nat.add_mod_mod, ← Nat.mod_add_mod, Nat.add_sub_of_le hle, Nat.mod_self]

@[simp] theorem roundUp_roundUp (n align : Nat) :
    roundUp (roundUp n align) align = roundUp n align := by
  rcases Nat.eq_zero_or_pos align with rfl | hpos
  · simp [roundUp]
  · rw [roundUp, roundUp_mod n hpos, Nat.sub_zero, Nat.mod_self, Nat.add_zero]

/-! ## In memory -/

mutual

def WireType.align : WireType → Nat
  | .int width => width
  | .array _ t => t.align
  | .struct fields => fields.align

def WireFields.align : WireFields → Nat
  | .nil => 1
  | .cons t rest => max t.align rest.align
  | .blank _ rest => rest.align

end

mutual

def WireType.size : WireType → Nat
  | .int width => width
  | .array n t => n * t.size
  | .struct fields => roundUp (fields.finish 0) fields.align

/-- The offset behind the last field, when the first one is placed from an offset on. -/
def WireFields.finish : WireFields → Nat → Nat
  | .nil, offset => offset
  | .cons t rest, offset => rest.finish (roundUp offset t.align + t.size)
  | .blank n rest, offset => rest.finish (offset + n)

end

mutual

/-- The offsets and widths of the integers of a value. -/
def WireType.places : WireType → Nat → List (Nat × Nat)
  | .int width, base => [(base, width)]
  | .array n t, base => (List.range n).flatMap fun i => t.places (base + i * t.size)
  | .struct fields, base => fields.places base 0

def WireFields.places : WireFields → Nat → Nat → List (Nat × Nat)
  | .nil, _, _ => []
  | .cons t rest, base, offset =>
    t.places (base + roundUp offset t.align) ++
      rest.places base (roundUp offset t.align + t.size)
  | .blank n rest, base, offset => rest.places base (offset + n)

end

/-- The integers that stand at some places of a memory. -/
def loads (places : List (Nat × Nat)) (bytes : List UInt8) : List Nat :=
  places.map fun p => leNat ((bytes.drop p.1).take p.2)

/-! ## On the wire -/

/-- A reader, `n` times. -/
def readTimes (read : List UInt8 → Option (List Nat × List UInt8)) :
    Nat → List UInt8 → Option (List Nat × List UInt8)
  | 0, bytes => some ([], bytes)
  | n + 1, bytes =>
    match read bytes with
    | none => none
    | some (vs, bytes) =>
      match readTimes read n bytes with
      | none => none
      | some (ws, bytes) => some (vs ++ ws, bytes)

/-- A writer, `n` times. -/
def writeTimes (write : List Nat → List UInt8 × List Nat) :
    Nat → List Nat → List UInt8 × List Nat
  | 0, vs => ([], vs)
  | n + 1, vs =>
    let (bytes, vs) := write vs
    let (more, vs) := writeTimes write n vs
    (bytes ++ more, vs)

mutual

/-- The integers of a value, and the bytes behind it. -/
def WireType.unmarshal : WireType → List UInt8 → Option (List Nat × List UInt8)
  | .int width, bytes =>
    if bytes.length < width then none
    else some ([leNat (bytes.take width)], bytes.drop width)
  | .array n t, bytes => readTimes t.unmarshal n bytes
  | .struct fields, bytes => fields.unmarshal bytes

def WireFields.unmarshal : WireFields → List UInt8 → Option (List Nat × List UInt8)
  | .nil, bytes => some ([], bytes)
  | .cons t rest, bytes =>
    match t.unmarshal bytes with
    | none => none
    | some (vs, bytes) =>
      match rest.unmarshal bytes with
      | none => none
      | some (ws, bytes) => some (vs ++ ws, bytes)
  | .blank n rest, bytes => if bytes.length < n then none else rest.unmarshal (bytes.drop n)

end

mutual

/-- The bytes of a value, and the integers that are left. -/
def WireType.marshal : WireType → List Nat → List UInt8 × List Nat
  | .int width, vs => (leBytes width (vs.headD 0), vs.tail)
  | .array n t, vs => writeTimes t.marshal n vs
  | .struct fields, vs => fields.marshal vs

def WireFields.marshal : WireFields → List Nat → List UInt8 × List Nat
  | .nil, vs => ([], vs)
  | .cons t rest, vs =>
    let (bytes, vs) := t.marshal vs
    let (more, vs) := rest.marshal vs
    (bytes ++ more, vs)
  | .blank n rest, vs =>
    let (bytes, vs) := rest.marshal vs
    (List.replicate n 0 ++ bytes, vs)

end

/-! ## Explicit gaps -/

/-- A gap before other fields. -/
def WireFields.gap (n : Nat) (rest : WireFields) : WireFields :=
  match n with
  | 0 => rest
  | n + 1 => .blank (n + 1) rest

mutual

/-- The type with every gap of the memory as a field. -/
def WireType.explicit : WireType → WireType
  | .int width => .int width
  | .array n t => .array n t.explicit
  | .struct fields => .struct (fields.explicit fields.align 0)

def WireFields.explicit : WireFields → Nat → Nat → WireFields
  | .nil, align, offset => .gap (roundUp offset align - offset) .nil
  | .cons t rest, align, offset =>
    .gap (roundUp offset t.align - offset)
      (.cons t.explicit (rest.explicit align (roundUp offset t.align + t.size)))
  | .blank n rest, align, offset => .blank n (rest.explicit align (offset + n))

end

/-! ## The same places -/

@[simp] theorem WireFields.gap_align (n : Nat) (rest : WireFields) :
    (rest.gap n).align = rest.align := by
  cases n <;> rfl

@[simp] theorem WireFields.gap_finish (n : Nat) (rest : WireFields) (offset : Nat) :
    (rest.gap n).finish offset = rest.finish (offset + n) := by
  cases n <;> rfl

@[simp] theorem WireFields.gap_places (n : Nat) (rest : WireFields) (base offset : Nat) :
    (rest.gap n).places base offset = rest.places base (offset + n) := by
  cases n <;> rfl

theorem add_roundUp_sub (n align : Nat) : n + (roundUp n align - n) = roundUp n align :=
  Nat.add_sub_of_le (le_roundUp n align)

mutual

@[simp] theorem WireType.explicit_align : ∀ t : WireType, t.explicit.align = t.align
  | .int _ => rfl
  | .array _ t => t.explicit_align
  | .struct fields => fields.explicit_align fields.align 0

@[simp] theorem WireFields.explicit_align : ∀ (fields : WireFields) (align offset : Nat),
    (fields.explicit align offset).align = fields.align
  | .nil, align, offset => by rw [WireFields.explicit, WireFields.gap_align]
  | .cons t rest, align, offset => by
    rw [WireFields.explicit, WireFields.gap_align, WireFields.align, WireFields.align,
      t.explicit_align, rest.explicit_align]
  | .blank n rest, align, offset => rest.explicit_align align (offset + n)

end

mutual

@[simp] theorem WireType.explicit_size : ∀ t : WireType, t.explicit.size = t.size
  | .int _ => rfl
  | .array n t => congrArg (n * ·) t.explicit_size
  | .struct fields => by
    rw [WireType.explicit, WireType.size, fields.explicit_finish, fields.explicit_align,
      roundUp_roundUp, WireType.size]

/-- The last gap ends the record. -/
@[simp] theorem WireFields.explicit_finish : ∀ (fields : WireFields) (align offset : Nat),
    (fields.explicit align offset).finish offset = roundUp (fields.finish offset) align
  | .nil, align, offset => by
    rw [WireFields.explicit, WireFields.gap_finish, add_roundUp_sub, WireFields.finish,
      WireFields.finish]
  | .cons t rest, align, offset => by
    rw [WireFields.explicit, WireFields.gap_finish, add_roundUp_sub, WireFields.finish,
      t.explicit_align, t.explicit_size, roundUp_roundUp, rest.explicit_finish, WireFields.finish]
  | .blank n rest, align, offset => rest.explicit_finish align (offset + n)

end

mutual

/-- The gaps are where the memory has them. -/
theorem WireType.explicit_places : ∀ (t : WireType) (base : Nat),
    t.explicit.places base = t.places base
  | .int _, _ => rfl
  | .array n t, base => by
    rw [WireType.explicit, WireType.places, WireType.places, t.explicit_size]
    exact List.flatMap_congr fun i _ => t.explicit_places _
  | .struct fields, base => fields.explicit_places fields.align base 0

theorem WireFields.explicit_places : ∀ (fields : WireFields) (align base offset : Nat),
    (fields.explicit align offset).places base offset = fields.places base offset
  | .nil, align, base, offset => by
    rw [WireFields.explicit, WireFields.gap_places, WireFields.places, WireFields.places]
  | .cons t rest, align, base, offset => by
    rw [WireFields.explicit, WireFields.gap_places, add_roundUp_sub, WireFields.places,
      WireFields.places, t.explicit_align, t.explicit_size, roundUp_roundUp, t.explicit_places,
      rest.explicit_places]
  | .blank n rest, align, base, offset => rest.explicit_places align base (offset + n)

end

/-! ## Reading -/

theorem loads_append (xs ys : List (Nat × Nat)) (bytes : List UInt8) :
    loads (xs ++ ys) bytes = loads xs bytes ++ loads ys bytes := List.map_append

theorem loads_flatMap {α : Type} (l : List α) (f : α → List (Nat × Nat)) (bytes : List UInt8) :
    loads (l.flatMap f) bytes = l.flatMap fun x => loads (f x) bytes := List.map_flatMap ..

mutual

theorem WireType.loads_drop : ∀ (t : WireType) (base k : Nat) (bytes : List UInt8),
    loads (t.places base) (bytes.drop k) = loads (t.places (k + base)) bytes
  | .int width, base, k, bytes => by
    simp only [WireType.places, loads, List.map_cons, List.map_nil, List.drop_drop]
  | .array n t, base, k, bytes => by
    rw [WireType.places, WireType.places, loads_flatMap, loads_flatMap]
    refine List.flatMap_congr fun i _ => ?_
    rw [t.loads_drop, Nat.add_assoc]
  | .struct fields, base, k, bytes => fields.loads_drop base 0 k bytes

theorem WireFields.loads_drop : ∀ (fields : WireFields) (base offset k : Nat)
    (bytes : List UInt8),
    loads (fields.places base offset) (bytes.drop k) = loads (fields.places (k + base) offset) bytes
  | .nil, _, _, _, _ => rfl
  | .cons t rest, base, offset, k, bytes => by
    rw [WireFields.places, WireFields.places, loads_append, loads_append, t.loads_drop,
      rest.loads_drop, Nat.add_assoc]
  | .blank n rest, base, offset, k, bytes => rest.loads_drop base (offset + n) k bytes

end

theorem WireFields.gap_unmarshal (n : Nat) (rest : WireFields) {bytes : List UInt8}
    (h : n ≤ bytes.length) : (rest.gap n).unmarshal bytes = rest.unmarshal (bytes.drop n) := by
  cases n with
  | zero => rfl
  | succ n => rw [gap, unmarshal, if_neg (Nat.not_lt.mpr h)]

theorem WireFields.le_finish : ∀ (fields : WireFields) (offset : Nat),
    offset ≤ fields.finish offset
  | .nil, _ => Nat.le_refl _
  | .cons t rest, offset =>
    (le_roundUp offset t.align).trans
      ((Nat.le_add_right _ _).trans (rest.le_finish (roundUp offset t.align + t.size)))
  | .blank n rest, offset => (Nat.le_add_right offset n).trans (rest.le_finish (offset + n))

theorem readTimes_loads {t : WireType} {read : List UInt8 → Option (List Nat × List UInt8)}
    (hread : ∀ bytes, t.size ≤ bytes.length →
      read bytes = some (loads (t.places 0) bytes, bytes.drop t.size)) (n : Nat)
    {bytes : List UInt8} (hlen : n * t.size ≤ bytes.length) :
    readTimes read n bytes =
      some (loads (WireType.array n t |>.places 0) bytes, bytes.drop (n * t.size)) := by
  induction n generalizing bytes with
  | zero => simp [readTimes, WireType.places, loads]
  | succ n ih =>
    rw [Nat.succ_mul] at hlen
    have hfirst : t.size ≤ bytes.length := (Nat.le_add_left _ _).trans hlen
    have hrest : n * t.size ≤ (bytes.drop t.size).length := by
      rw [List.length_drop]
      omega
    rw [readTimes, hread bytes hfirst]
    dsimp only
    rw [ih hrest]
    dsimp only
    rw [List.drop_drop, Nat.succ_mul, Nat.add_comm t.size, WireType.places, WireType.places,
      List.range_succ_eq_map, List.flatMap_cons, loads_append, List.flatMap_map, loads_flatMap,
      loads_flatMap]
    congr 3
    · simp
    · refine List.flatMap_congr fun i _ => ?_
      rw [t.loads_drop, Nat.succ_mul]
      congr 2
      omega

mutual

/-- Reading from the wire reads what stands in memory. -/
theorem WireType.unmarshal_explicit : ∀ (t : WireType) {bytes : List UInt8},
    t.size ≤ bytes.length →
      t.explicit.unmarshal bytes = some (loads (t.places 0) bytes, bytes.drop t.size)
  | .int width, bytes, hlen => by
    have hwidth : ¬bytes.length < width := Nat.not_lt.mpr hlen
    rw [WireType.explicit, WireType.unmarshal, if_neg hwidth]
    rfl
  | .array n t, bytes, hlen =>
    readTimes_loads (fun _ h => t.unmarshal_explicit h) n hlen
  | .struct fields, bytes, hlen => fields.unmarshal_explicit fields.align 0 hlen

theorem WireFields.unmarshal_explicit : ∀ (fields : WireFields) (align offset : Nat)
    {bytes : List UInt8}, roundUp (fields.finish offset) align ≤ bytes.length →
      (fields.explicit align offset).unmarshal (bytes.drop offset) =
        some (loads (fields.places 0 offset) bytes,
          bytes.drop (roundUp (fields.finish offset) align))
  | .nil, align, offset, bytes, hlen => by
    rw [WireFields.finish] at hlen
    have hgap : roundUp offset align - offset ≤ (bytes.drop offset).length := by
      rw [List.length_drop]
      omega
    rw [WireFields.explicit, WireFields.gap_unmarshal _ _ hgap, List.drop_drop, add_roundUp_sub]
    rfl
  | .cons t rest, align, offset, bytes, hlen => by
    rw [WireFields.finish] at hlen
    have hle := (rest.le_finish (roundUp offset t.align + t.size)).trans
      ((le_roundUp _ align).trans hlen)
    have hoffset := le_roundUp offset t.align
    have hgap : roundUp offset t.align - offset ≤ (bytes.drop offset).length := by
      rw [List.length_drop]
      omega
    have hfirst : t.size ≤ (bytes.drop (roundUp offset t.align)).length := by
      rw [List.length_drop]
      omega
    rw [WireFields.explicit, WireFields.gap_unmarshal _ _ hgap, List.drop_drop, add_roundUp_sub,
      WireFields.unmarshal, t.unmarshal_explicit hfirst]
    dsimp only
    rw [List.drop_drop, rest.unmarshal_explicit align _ hlen]
    dsimp only
    rw [WireFields.places, loads_append, t.loads_drop, WireFields.finish, Nat.add_zero,
      Nat.zero_add]
  | .blank n rest, align, offset, bytes, hlen => by
    have hle := (rest.le_finish (offset + n)).trans ((le_roundUp _ align).trans hlen)
    have hn : ¬(bytes.drop offset).length < n := by
      rw [List.length_drop]
      omega
    rw [WireFields.explicit, WireFields.unmarshal, if_neg hn, List.drop_drop]
    exact rest.unmarshal_explicit align (offset + n) hlen

end

/-! ## Writing -/

mutual

/-- The widths of the integers of a value. -/
def WireType.widths : WireType → List Nat
  | .int width => [width]
  | .array n t => (List.replicate n t.widths).flatten
  | .struct fields => fields.widths

def WireFields.widths : WireFields → List Nat
  | .nil => []
  | .cons t rest => t.widths ++ rest.widths
  | .blank _ rest => rest.widths

end

/-- The integers are in the range of their widths. -/
def Fits : List Nat → List Nat → Prop := List.Forall₂ fun v width => v < 256 ^ width

theorem Fits.split {vs ws us : List Nat} (h : Fits vs (ws ++ us)) :
    ∃ xs ys, vs = xs ++ ys ∧ Fits xs ws ∧ Fits ys us :=
  ⟨_, _, (List.take_append_drop ws.length vs).symm, List.forall₂_take_append _ _ _ h,
    List.forall₂_drop_append _ _ _ h⟩

/-- Writing some integers gives bytes that are read as these integers. -/
def WritesBack (marshal : List Nat → List UInt8 × List Nat)
    (unmarshal : List UInt8 → Option (List Nat × List UInt8)) (vs : List Nat) : Prop :=
  ∃ bytes, (∀ rest, marshal (vs ++ rest) = (bytes, rest)) ∧
    ∀ following, unmarshal (bytes ++ following) = some (vs, following)

theorem writeTimes_writesBack {widths : List Nat} {marshal : List Nat → List UInt8 × List Nat}
    {unmarshal : List UInt8 → Option (List Nat × List UInt8)}
    (h : ∀ {vs}, Fits vs widths → WritesBack marshal unmarshal vs) (n : Nat) {vs : List Nat}
    (hfits : Fits vs (List.replicate n widths).flatten) :
    WritesBack (writeTimes marshal n) (readTimes unmarshal n) vs := by
  induction n generalizing vs with
  | zero =>
    cases hfits
    exact ⟨[], fun _ => rfl, fun _ => rfl⟩
  | succ n ih =>
    rw [List.replicate_succ, List.flatten_cons] at hfits
    obtain ⟨xs, ys, rfl, hxs, hys⟩ := hfits.split
    obtain ⟨first, hfirst, hread⟩ := h hxs
    obtain ⟨more, hmore, hreads⟩ := ih hys
    refine ⟨first ++ more, fun rest => ?_, fun following => ?_⟩
    · rw [writeTimes, List.append_assoc, hfirst]
      dsimp only
      rw [hmore]
    · rw [readTimes, List.append_assoc, hread]
      dsimp only
      rw [hreads]

mutual

theorem WireType.writesBack : ∀ (t : WireType) {vs : List Nat}, Fits vs t.widths →
    WritesBack t.marshal t.unmarshal vs
  | .int width, vs, h => by
    obtain ⟨v, rfl⟩ := List.length_eq_one_iff.mp h.length_eq
    have hv : v < 256 ^ width := (List.forall₂_cons.mp h).1
    refine ⟨leBytes width v, fun rest => rfl, fun following => ?_⟩
    have hlen : ¬(leBytes width v ++ following).length < width := by simp
    rw [WireType.unmarshal, if_neg hlen, List.take_left' (leBytes_length width v),
      List.drop_left' (leBytes_length width v), leNat_leBytes, Nat.mod_eq_of_lt hv]
  | .array n t, vs, h => writeTimes_writesBack (fun hvs => t.writesBack hvs) n h
  | .struct fields, vs, h => fields.writesBack h

theorem WireFields.writesBack : ∀ (fields : WireFields) {vs : List Nat}, Fits vs fields.widths →
    WritesBack fields.marshal fields.unmarshal vs
  | .nil, vs, h => by
    cases h
    exact ⟨[], fun _ => rfl, fun _ => rfl⟩
  | .cons t rest, vs, h => by
    obtain ⟨xs, ys, rfl, hxs, hys⟩ := Fits.split h
    obtain ⟨first, hfirst, hread⟩ := t.writesBack hxs
    obtain ⟨more, hmore, hreads⟩ := rest.writesBack hys
    refine ⟨first ++ more, fun rest => ?_, fun following => ?_⟩
    · rw [WireFields.marshal, List.append_assoc, hfirst]
      dsimp only
      rw [hmore]
    · rw [WireFields.unmarshal, List.append_assoc, hread]
      dsimp only
      rw [hreads]
  | .blank n rest, vs, h => by
    obtain ⟨bytes, hbytes, hreads⟩ := rest.writesBack h
    refine ⟨List.replicate n 0 ++ bytes, fun rest => ?_, fun following => ?_⟩
    · rw [WireFields.marshal, hbytes]
    · have hlen : ¬(List.replicate n (0 : UInt8) ++ bytes ++ following).length < n := by simp
      rw [WireFields.unmarshal, if_neg hlen, List.append_assoc,
        List.drop_left' List.length_replicate, hreads]

end

theorem WireFields.gap_widths (n : Nat) (rest : WireFields) : (rest.gap n).widths = rest.widths := by
  cases n <;> rfl

mutual

theorem WireType.explicit_widths : ∀ t : WireType, t.explicit.widths = t.widths
  | .int _ => rfl
  | .array n t => congrArg (fun ws => (List.replicate n ws).flatten) t.explicit_widths
  | .struct fields => fields.explicit_widths fields.align 0

theorem WireFields.explicit_widths : ∀ (fields : WireFields) (align offset : Nat),
    (fields.explicit align offset).widths = fields.widths
  | .nil, align, offset => by rw [WireFields.explicit, WireFields.gap_widths]
  | .cons t rest, align, offset => by
    rw [WireFields.explicit, WireFields.gap_widths, WireFields.widths, WireFields.widths,
      t.explicit_widths, rest.explicit_widths]
  | .blank n rest, align, offset => rest.explicit_widths align (offset + n)

end

/-- What is written to the wire stands in memory. -/
theorem WireType.marshal_loads (t : WireType) {vs : List Nat} (h : Fits vs t.widths) :
    (t.explicit.marshal vs).1.length = t.size ∧
      loads (t.places 0) (t.explicit.marshal vs).1 = vs := by
  obtain ⟨bytes, hbytes, hreads⟩ := t.explicit.writesBack (t.explicit_widths.symm ▸ h)
  have hmarshal : t.explicit.marshal vs = (bytes, []) := by simpa using hbytes []
  have hlen : bytes.length = t.size := by
    -- behind the value, enough bytes follow
    have hread := hreads (List.replicate t.size 0)
    rw [t.unmarshal_explicit (by simp), Option.some_inj, Prod.mk.injEq] at hread
    have hdrop := congrArg List.length hread.2
    rw [List.length_drop, List.length_append, List.length_replicate] at hdrop
    omega
  have hread := hreads []
  rw [List.append_nil, t.unmarshal_explicit (Nat.le_of_eq hlen.symm), Option.some_inj,
    Prod.mk.injEq] at hread
  rw [hmarshal]
  exact ⟨hlen, hread.1⟩

end GoFtrace.Lib
