import GoFtrace.Lib.Patch
import GoFtrace.Uprobe.Layout
import GoFtrace.Uprobe.Value

/-!
# The parts of a struct

The words of a struct passed by value, each with the bytes of the struct that it holds. The
fields may be in any order and leave gaps.

* `scatter_patches`: `scatterWords` copies each word to its part.
* `scatterWords_inside`, `scatterWords_padding`: what it leaves in the image.
-/

namespace GoFtrace.Uprobe

open Lib

/-! ## Types passed by value -/

mutual

/-- Scalars of one to eight bytes, pointers, strings, slices, interfaces and non-empty structs.
What passes for a string, a slice or an interface is as long as one, and nothing is both a slice
and an interface. -/
def DType.byValue : DType → Bool
  | .typedef _ t => t.byValue
  | .qual _ t => t.byValue
  | .ptr _ n _ => n == 8
  | .basic _ _ n => decide (0 < n) && decide (n ≤ 8)
  | .struct _ s n fs =>
    match structKind s fs with
    | .plain => fs.names != [] && fs.byValue n
    | .slice => n == 24 && !isInterface s fs
    | kind => n == 8 * kind.words
  | _ => false

/-- Fields inside the first `size` bytes, no two of which overlap. -/
def Fields.byValue (size : Int) : Fields → Bool
  | .nil => true
  | .cons _ off t rest =>
    decide (0 ≤ off) && decide (off + t.size ≤ size) && t.byValue &&
      rest.clearOf off (off + t.size) && rest.byValue size

/-- No field has a byte between two offsets. -/
def Fields.clearOf (lo hi : Int) : Fields → Bool
  | .nil => true
  | .cons _ off t rest => (decide (off + t.size ≤ lo) || decide (hi ≤ off)) && rest.clearOf lo hi

end

/-! ## Parts -/

/-- The bytes of a struct that one word holds. The word of the type of a non-empty interface is
read through its itab. -/
structure Part where
  offset : Nat
  size : Nat
  viaItab : Bool := false
  deriving DecidableEq, Repr

/-- The byte belongs to the part. -/
def Part.Has (p : Part) (i : Nat) : Prop := p.offset ≤ i ∧ i < p.offset + p.size

mutual

/-- The parts of a value at an offset, in the order of its words. -/
def DType.parts : DType → Nat → List Part
  | .typedef _ t, base => t.parts base
  | .qual _ t, base => t.parts base
  | .struct _ s _ fs, base =>
    match structKind s fs with
    | .string => [{ offset := base, size := 8 }, { offset := base + 8, size := 8 }]
    | .slice =>
      [{ offset := base, size := 8 }, { offset := base + 8, size := 8 },
        { offset := base + 16, size := 8 }]
    | .iface nonEmpty =>
      [{ offset := base, size := 8, viaItab := nonEmpty }, { offset := base + 8, size := 8 }]
    | .plain => fs.parts base
  | .ptr _ _ _, base => [{ offset := base, size := 8 }]
  | .basic _ _ n, base => [{ offset := base, size := n.toNat }]
  | _, base => [{ offset := base, size := 8 }]

def Fields.parts : Fields → Nat → List Part
  | .nil, _ => []
  | .cons _ off t rest, base => t.parts (base + off.toNat) ++ rest.parts base

end

mutual

theorem parts_length : ∀ (t : DType) (base : Nat), (t.parts base).length = t.leafWords
  | .typedef _ t, base => parts_length t base
  | .qual _ t, base => parts_length t base
  | .struct _ s _ fs, base => by
    rw [DType.parts, DType.leafWords]
    cases structKind s fs with
    | plain => exact fields_parts_length fs base
    | _ => rfl
  | .ptr _ _ _, _ => rfl
  | .basic _ _ _, _ => rfl
  | .func _ _ _, _ => rfl
  | .other _ _ _, _ => rfl

theorem fields_parts_length : ∀ (fs : Fields) (base : Nat),
    (fs.parts base).length = fs.leafWords
  | .nil, _ => rfl
  | .cons _ _ t rest, base => by
    rw [Fields.parts, List.length_append, parts_length t, fields_parts_length rest,
      Fields.leafWords]

end

/-! ## Sizes and words -/

section
variable {n s : String} {b : Int} {fs : Fields}

theorem byValue_plain (hkind : structKind s fs = .plain)
    (h : (DType.struct n s b fs).byValue = true) : fs.names ≠ [] ∧ fs.byValue b = true := by
  simp only [DType.byValue, hkind, Bool.and_eq_true, bne_iff_ne, ne_eq] at h
  exact h

theorem byValue_header (hkind : structKind s fs ≠ .plain)
    (h : (DType.struct n s b fs).byValue = true) : b = 8 * (structKind s fs).words := by
  rw [DType.byValue] at h
  cases hk : structKind s fs with
  | plain => exact absurd hk hkind
  | slice =>
    simp only [hk, Bool.and_eq_true, beq_iff_eq] at h
    exact h.1
  | string =>
    simp only [hk, beq_iff_eq] at h
    exact h
  | iface nonEmpty =>
    simp only [hk, beq_iff_eq] at h
    exact h

end

theorem fields_byValue_cons {n : String} {off size : Int} {t : DType} {rest : Fields}
    (h : (Fields.cons n off t rest).byValue size = true) :
    0 ≤ off ∧ off + t.size ≤ size ∧ t.byValue = true ∧
      rest.clearOf off (off + t.size) = true ∧ rest.byValue size = true := by
  simp only [Fields.byValue, Bool.and_eq_true, decide_eq_true_eq] at h
  obtain ⟨⟨⟨⟨hoff, hend⟩, ht⟩, hclear⟩, hrest⟩ := h
  exact ⟨hoff, hend, ht, hclear, hrest⟩

theorem byValue_size_pos : ∀ t : DType, t.byValue = true → 0 < t.size
  | .typedef _ t, h => byValue_size_pos t h
  | .qual _ t, h => byValue_size_pos t h
  | .ptr _ n _, h => by
    have hn : n = 8 := by simpa [DType.byValue] using h
    rw [DType.size, hn]
    decide
  | .basic _ _ n, h => by
    simp only [DType.byValue, Bool.and_eq_true, decide_eq_true_eq] at h
    exact h.1
  | .struct _ s n fs, h => by
    rw [DType.size]
    by_cases hkind : structKind s fs = .plain
    · obtain ⟨hne, hfs⟩ := byValue_plain hkind h
      cases fs with
      | nil => exact absurd rfl hne
      | cons x off t rest =>
        obtain ⟨hoff, hend, ht, -⟩ := fields_byValue_cons hfs
        have hpos := byValue_size_pos t ht
        omega
    · rw [byValue_header hkind h]
      cases hk : structKind s fs with
      | plain => exact absurd hk hkind
      | _ => simp only [StructKind.words]; omega
  | .func _ _ _, h => by cases h
  | .other _ _ _, h => by cases h

mutual

/-- `abiWordCount` counts the parts. -/
theorem byValue_abiWordCount : ∀ t : DType, t.byValue = true →
    t.abiWordCount = t.leafWords ∧ 0 < t.leafWords
  | .typedef _ t, h => byValue_abiWordCount t h
  | .qual _ t, h => byValue_abiWordCount t h
  | .ptr _ _ _, _ => ⟨rfl, Nat.one_pos⟩
  | .basic k _ _, _ => ⟨by cases k <;> rfl, Nat.one_pos⟩
  | .struct n s b fs, h => by
    rw [DType.abiWordCount, DType.leafWords]
    cases hkind : structKind s fs with
    | string =>
      rw [structKind_string hkind]
      exact ⟨rfl, Nat.two_pos⟩
    | slice =>
      have hi : isInterface s fs = false := by
        simp only [DType.byValue, hkind, Bool.and_eq_true, Bool.not_eq_true'] at h
        exact h.2
      obtain ⟨hs, hl⟩ := structKind_slice hkind
      rw [hs, hl, hi]
      exact ⟨rfl, Nat.succ_pos _⟩
    | iface nonEmpty =>
      rw [(structKind_iface hkind).1, Bool.or_true]
      exact ⟨rfl, Nat.two_pos⟩
    | plain =>
      obtain ⟨hs, hl, hi⟩ := structKind_plain hkind
      obtain ⟨hne, hfs⟩ := byValue_plain hkind h
      have hwords := fields_abiWordCount fs b 0 hfs
      simp only [hs, hl, hi, Bool.or_self, Bool.false_eq_true, if_false]
      rw [hwords, Nat.zero_add]
      refine ⟨rfl, ?_⟩
      cases fs with
      | nil => exact absurd rfl hne
      | cons x off t rest =>
        have ht := (byValue_abiWordCount t (fields_byValue_cons hfs).2.2.1).2
        rw [Fields.leafWords]
        omega
  | .func _ _ _, h => by cases h
  | .other _ _ _, h => by cases h

theorem fields_abiWordCount : ∀ (fs : Fields) (size : Int) (n : Nat), fs.byValue size = true →
    fs.abiWordCount n = n + fs.leafWords
  | .nil, _, _, _ => rfl
  | .cons _ _ t rest, size, n, h => by
    obtain ⟨-, -, ht, -, hrest⟩ := fields_byValue_cons h
    obtain ⟨heq, hpos⟩ := byValue_abiWordCount t ht
    rw [Fields.abiWordCount, if_neg (by omega), fields_abiWordCount rest size _ hrest, heq,
      Fields.leafWords, Nat.add_assoc]

end

/-! ## Where the parts are -/

/-- A part between two offsets. -/
def Part.Within (lo hi : Nat) (p : Part) : Prop := lo ≤ p.offset ∧ p.offset + p.size ≤ hi

theorem Part.Within.mono {lo hi lo' hi' : Nat} {p : Part} (h : p.Within lo hi) (hlo : lo' ≤ lo)
    (hhi : hi ≤ hi') : p.Within lo' hi' := ⟨hlo.trans h.1, h.2.trans hhi⟩

/-- Two parts without a common byte. -/
def Part.Apart (p q : Part) : Prop := p.offset + p.size ≤ q.offset ∨ q.offset + q.size ≤ p.offset

mutual

theorem parts_within : ∀ (t : DType), t.byValue = true → ∀ base : Nat,
    ∀ p ∈ t.parts base, p.Within base (base + t.size.toNat)
  | .typedef _ t, h, base => parts_within t h base
  | .qual _ t, h, base => parts_within t h base
  | .ptr _ n _, h, base => by
    have hn : n = 8 := by simpa [DType.byValue] using h
    subst hn
    exact List.forall_mem_singleton.mpr ⟨Nat.le_refl _, Nat.le_refl _⟩
  | .basic _ _ n, h, base => List.forall_mem_singleton.mpr ⟨Nat.le_refl _, Nat.le_refl _⟩
  | .struct n s b fs, h, base => by
    rw [DType.size]
    by_cases hkind : structKind s fs = .plain
    · obtain ⟨-, hfs⟩ := byValue_plain hkind h
      rw [DType.parts, hkind]
      exact fields_parts_within fs b hfs base
    · have hb := byValue_header hkind h
      rw [DType.parts]
      intro p hp
      cases hk : structKind s fs with
      | plain => exact absurd hk hkind
      | string =>
        rw [hk] at hb hp
        simp only [StructKind.words, List.mem_cons, List.not_mem_nil, or_false] at hb hp
        rcases hp with rfl | rfl <;> exact ⟨by dsimp only; omega, by dsimp only; omega⟩
      | slice =>
        rw [hk] at hb hp
        simp only [StructKind.words, List.mem_cons, List.not_mem_nil, or_false] at hb hp
        rcases hp with rfl | rfl | rfl <;> exact ⟨by dsimp only; omega, by dsimp only; omega⟩
      | iface nonEmpty =>
        rw [hk] at hb hp
        simp only [StructKind.words, List.mem_cons, List.not_mem_nil, or_false] at hb hp
        rcases hp with rfl | rfl <;> exact ⟨by dsimp only; omega, by dsimp only; omega⟩
  | .func _ _ _, h, _ => by cases h
  | .other _ _ _, h, _ => by cases h

theorem fields_parts_within : ∀ (fs : Fields) (size : Int), fs.byValue size = true →
    ∀ base : Nat, ∀ p ∈ fs.parts base, p.Within base (base + size.toNat)
  | .nil, _, _, _ => nofun
  | .cons _ off t rest, size, h, base => by
    obtain ⟨hoff, hend, ht, -, hrest⟩ := fields_byValue_cons h
    have hpos := byValue_size_pos t ht
    rw [Fields.parts]
    refine List.forall_mem_append.mpr ⟨fun p hp => ?_, fields_parts_within rest size hrest base⟩
    exact (parts_within t ht _ p hp).mono (by omega) (by omega)

end

/-- The parts of fields that stay clear of a range. -/
theorem fields_parts_clear {lo hi size : Int} (hlo : 0 ≤ lo) (hle : lo ≤ hi) :
    ∀ fs : Fields, fs.byValue size = true → fs.clearOf lo hi = true → ∀ base : Nat,
      ∀ p ∈ fs.parts base, p.offset + p.size ≤ base + lo.toNat ∨ base + hi.toNat ≤ p.offset
  | .nil, _, _, _ => nofun
  | .cons _ off t rest, h, hclear, base => by
    obtain ⟨hoff, -, ht, -, hrest⟩ := fields_byValue_cons h
    simp only [Fields.clearOf, Bool.and_eq_true, Bool.or_eq_true, decide_eq_true_eq] at hclear
    rw [Fields.parts]
    refine List.forall_mem_append.mpr
      ⟨fun p hp => ?_, fields_parts_clear hlo hle rest hrest hclear.2 base⟩
    have hpos := byValue_size_pos t ht
    obtain ⟨hfirst, hlast⟩ := parts_within t ht _ p hp
    rcases hclear.1 with hbefore | hafter
    · left
      omega
    · right
      omega

mutual

theorem parts_apart : ∀ (t : DType), t.byValue = true → ∀ base : Nat,
    (t.parts base).Pairwise Part.Apart
  | .typedef _ t, h, base => parts_apart t h base
  | .qual _ t, h, base => parts_apart t h base
  | .ptr _ _ _, _, _ => List.pairwise_singleton _ _
  | .basic _ _ _, _, _ => List.pairwise_singleton _ _
  | .struct n s b fs, h, base => by
    rw [DType.parts]
    cases hkind : structKind s fs with
    | plain => exact fields_parts_apart fs b (byValue_plain hkind h).2 base
    | string =>
      refine List.pairwise_cons.mpr ⟨?_, List.pairwise_singleton _ _⟩
      exact List.forall_mem_singleton.mpr (.inl (Nat.le_refl _))
    | slice =>
      refine List.pairwise_cons.mpr ⟨?_, List.pairwise_cons.mpr ⟨?_, List.pairwise_singleton _ _⟩⟩
      · refine List.forall_mem_cons.mpr ⟨.inl (Nat.le_refl _), List.forall_mem_singleton.mpr ?_⟩
        exact .inl (by dsimp only; omega)
      · exact List.forall_mem_singleton.mpr (.inl (Nat.le_refl _))
    | iface nonEmpty =>
      refine List.pairwise_cons.mpr ⟨?_, List.pairwise_singleton _ _⟩
      exact List.forall_mem_singleton.mpr (.inl (Nat.le_refl _))
  | .func _ _ _, h, _ => by cases h
  | .other _ _ _, h, _ => by cases h

theorem fields_parts_apart : ∀ (fs : Fields) (size : Int), fs.byValue size = true →
    ∀ base : Nat, (fs.parts base).Pairwise Part.Apart
  | .nil, _, _, _ => .nil
  | .cons _ off t rest, size, h, base => by
    obtain ⟨hoff, -, ht, hclear, hrest⟩ := fields_byValue_cons h
    have hpos := byValue_size_pos t ht
    rw [Fields.parts]
    refine List.pairwise_append.mpr
      ⟨parts_apart t ht _, fields_parts_apart rest size hrest base, fun p hp q hq => ?_⟩
    obtain ⟨hfirst, hlast⟩ := parts_within t ht _ p hp
    rcases fields_parts_clear hoff (by omega) rest hrest hclear base q hq with hbefore | hafter
    · right
      omega
    · left
      omega

end

/-! ## Scattering -/

/-- Each word from a position on, cut to its part. -/
def patches (words : List UInt8) : Nat → List Part → List (Patch UInt8)
  | _, [] => []
  | k, p :: ps => ⟨p.offset, (words.drop k).take p.size⟩ :: patches words (k + 8) ps

theorem patches_append (words : List UInt8) (ps qs : List Part) :
    ∀ k, patches words k (ps ++ qs) =
      patches words k ps ++ patches words (k + 8 * ps.length) qs := by
  induction ps with
  | nil => exact fun k => rfl
  | cons p ps ih =>
    intro k
    have hk : k + 8 + 8 * ps.length = k + 8 * (ps.length + 1) := by omega
    rw [List.cons_append, patches, patches, ih, hk, List.length_cons, List.cons_append]

theorem blit_write {img bs : List UInt8} {base : Nat} (h : base + bs.length ≤ img.length) :
    blit img base bs = Patch.write img ⟨base, bs⟩ := by
  rw [blit, if_pos ⟨Int.natCast_nonneg _, by exact_mod_cast h⟩, Int.toNat_natCast]
  rfl

section
variable {words : List UInt8} {s : Scatter} {base n : Nat}

/-- A move with all its words and room for them. -/
theorem move_write (step : Nat) (hwords : s.consume + n ≤ words.length)
    (himg : base + n ≤ s.img.length) :
    s.move words base n step =
      { img := Patch.write s.img ⟨base, (words.drop s.consume).take n⟩
        consume := s.consume + step } := by
  have hlen : ((words.drop s.consume).take n).length = n := by
    rw [List.length_take, List.length_drop]
    omega
  rw [Scatter.move, if_pos hwords, blit_write (by omega)]

/-- The first word of a longer move is a move of its own. -/
theorem write_word (hwords : s.consume + (8 + n) ≤ words.length)
    (himg : base + (8 + n) ≤ s.img.length) :
    Patch.write s.img ⟨base, (words.drop s.consume).take (8 + n)⟩ =
      Patch.write (Patch.write s.img ⟨base, (words.drop s.consume).take 8⟩)
        ⟨base + 8, (words.drop (s.consume + 8)).take n⟩ := by
  have hfirst : ((words.drop s.consume).take 8).length = 8 := by
    rw [List.length_take, List.length_drop]
    omega
  have hrest : ((words.drop (s.consume + 8)).take n).length = n := by
    rw [List.length_take, List.length_drop]
    omega
  have hfit : base + (((words.drop s.consume).take 8).length +
      ((words.drop (s.consume + 8)).take n).length) ≤ s.img.length := by
    rw [hfirst, hrest]
    exact himg
  have happend := Patch.write_append base hfit
  rw [hfirst] at happend
  rw [← happend, List.take_add, List.drop_drop]

end

/-- The state after the parts of a value were copied. -/
def Scatter.patched (s : Scatter) (words : List UInt8) (ps : List Part) : Scatter :=
  { img := Patch.apply s.img (patches words s.consume ps)
    consume := s.consume + 8 * ps.length }

theorem Scatter.patched_append (s : Scatter) (words : List UInt8) (ps qs : List Part) :
    s.patched words (ps ++ qs) = (s.patched words ps).patched words qs := by
  rw [patched, patched, patched, patches_append, Patch.apply_append, List.length_append,
    Nat.mul_add, Nat.add_assoc]

theorem Scatter.patched_length {s : Scatter} {words : List UInt8} {ps : List Part}
    (h : ∀ p ∈ ps, p.offset + p.size ≤ s.img.length) :
    (s.patched words ps).img.length = s.img.length := by
  refine Patch.apply_length ?_
  generalize s.consume = k
  induction ps generalizing k with
  | nil => exact nofun
  | cons p ps ih =>
    obtain ⟨hp, hps⟩ := List.forall_mem_cons.mp h
    refine List.forall_mem_cons.mpr ⟨?_, ih hps (k + 8)⟩
    rw [Patch.Fits, List.length_take]
    dsimp only
    omega

/-- A value in one word. -/
theorem move_patched {s : Scatter} {words : List UInt8} {base size : Nat} (hle : size ≤ 8)
    (hwords : s.consume + 8 ≤ words.length) (himg : base + size ≤ s.img.length) :
    s.move words base size 8 = s.patched words [{ offset := base, size := size }] := by
  rw [move_write 8 (by omega) himg]
  rfl

/-- A header of two words. -/
theorem move_two {s : Scatter} {words : List UInt8} {base : Nat} (viaItab : Bool)
    (hwords : s.consume + 16 ≤ words.length) (himg : base + 16 ≤ s.img.length) :
    s.move words base 16 16 = s.patched words
      [{ offset := base, size := 8, viaItab := viaItab }, { offset := base + 8, size := 8 }] := by
  have hsplit := write_word (n := 8) hwords himg
  rw [move_write 16 hwords himg]
  exact congrArg (fun img => Scatter.mk img (s.consume + 16)) hsplit

/-- A header of three words. -/
theorem move_three {s : Scatter} {words : List UInt8} {base : Nat}
    (hwords : s.consume + 24 ≤ words.length) (himg : base + 24 ≤ s.img.length) :
    s.move words base 24 24 = s.patched words
      [{ offset := base, size := 8 }, { offset := base + 8, size := 8 },
        { offset := base + 16, size := 8 }] := by
  have hfirst := write_word (n := 16) hwords himg
  have hlen : (Patch.write s.img ⟨base, (words.drop s.consume).take 8⟩).length = s.img.length := by
    refine Patch.write_length ?_
    rw [Patch.Fits, List.length_take]
    dsimp only
    omega
  have hwords' : s.consume + 8 + (8 + 8) ≤ words.length := by omega
  have himg' : base + 8 + (8 + 8) ≤
      (Patch.write s.img ⟨base, (words.drop s.consume).take 8⟩).length := by
    rw [hlen]
    omega
  have hsecond := write_word (s := { img := _, consume := s.consume + 8 }) hwords' himg'
  rw [move_write 24 hwords himg]
  exact congrArg (fun img => Scatter.mk img (s.consume + 24)) (hfirst.trans hsecond)

mutual

/-- `scatterWords` copies each word to its part. -/
theorem scatter_patched (words : List UInt8) : ∀ t : DType, t.byValue = true →
    ∀ (base : Nat) (s : Scatter), s.consume + 8 * t.leafWords ≤ words.length →
      base + t.size.toNat ≤ s.img.length →
      t.scatter words base s = s.patched words (t.parts base)
  | .typedef _ t, h, base, s, hwords, himg => scatter_patched words t h base s hwords himg
  | .qual _ t, h, base, s, hwords, himg => scatter_patched words t h base s hwords himg
  | .ptr _ n _, h, base, s, hwords, himg => by
    have hn : n = 8 := by simpa [DType.byValue] using h
    subst hn
    exact move_patched (Nat.le_refl 8) hwords himg
  | .basic k x n, h, base, s, hwords, himg => by
    simp only [DType.byValue, Bool.and_eq_true, decide_eq_true_eq] at h
    have hsize : (if (DType.basic k x n).size ≤ 0 then 8
        else min (DType.basic k x n).size.toNat 8) = n.toNat := by
      rw [DType.size, if_neg (by omega)]
      omega
    rw [DType.scatter, hsize]
    · exact move_patched (by omega) hwords himg
    all_goals nofun
  | .struct n name b fs, h, base, s, hwords, himg => by
    obtain ⟨hcount, -⟩ := byValue_abiWordCount _ h
    rw [DType.size] at himg
    rw [DType.scatter, DType.parts]
    cases hkind : structKind name fs with
    | plain =>
      rw [if_pos rfl]
      rw [DType.leafWords, hkind] at hwords
      exact scatter_fields_patched words fs b (byValue_plain hkind h).2 base s hwords himg
    | string =>
      have hb := byValue_header (by rw [hkind]; nofun) h
      rw [DType.leafWords, hkind] at hwords hcount
      rw [hkind] at hb
      simp only [StructKind.words] at hb hwords hcount
      rw [if_neg nofun, hcount]
      exact move_two false hwords (by omega)
    | slice =>
      have hb := byValue_header (by rw [hkind]; nofun) h
      rw [DType.leafWords, hkind] at hwords hcount
      rw [hkind] at hb
      simp only [StructKind.words] at hb hwords hcount
      rw [if_neg nofun, hcount]
      exact move_three hwords (by omega)
    | iface nonEmpty =>
      have hb := byValue_header (by rw [hkind]; nofun) h
      rw [DType.leafWords, hkind] at hwords hcount
      rw [hkind] at hb
      simp only [StructKind.words] at hb hwords hcount
      rw [if_neg nofun, hcount]
      exact move_two nonEmpty hwords (by omega)
  | .func _ _ _, h, _, _, _, _ => by cases h
  | .other _ _ _, h, _, _, _, _ => by cases h

theorem scatter_fields_patched (words : List UInt8) : ∀ (fs : Fields) (size : Int),
    fs.byValue size = true → ∀ (base : Nat) (s : Scatter),
      s.consume + 8 * fs.leafWords ≤ words.length → base + size.toNat ≤ s.img.length →
      fs.scatter words base s = s.patched words (fs.parts base)
  | .nil, _, _, _, _, _, _ => rfl
  | .cons _ off t rest, size, h, base, s, hwords, himg => by
    obtain ⟨hoff, hend, ht, -, hrest⟩ := fields_byValue_cons h
    have hpos := byValue_size_pos t ht
    rw [Fields.leafWords] at hwords
    obtain ⟨k, rfl⟩ := Int.eq_ofNat_of_zero_le hoff
    have hcast : (base : Int) + (k : Int) = ((base + k : Nat) : Int) := by
      push_cast
      rfl
    have hhead := scatter_patched words t ht (base + k) s (by omega) (by omega)
    have hlen : (s.patched words (t.parts (base + k))).img.length = s.img.length := by
      refine Scatter.patched_length fun p hp => ?_
      have hwithin := (parts_within t ht _ p hp).2
      omega
    have hconsume : (s.patched words (t.parts (base + k))).consume =
        s.consume + 8 * t.leafWords := by
      rw [Scatter.patched, parts_length]
    rw [Fields.scatter, Fields.parts, Scatter.patched_append, hcast, hhead, Int.toNat_natCast]
    exact scatter_fields_patched words rest size hrest base _ (by omega) (by omega)

end

/-! ## The image -/

section
variable {words : List UInt8}

theorem patches_getElem {ps : List Part} {j : Nat} {p : Part} (h : ps[j]? = some p) (k : Nat) :
    (⟨p.offset, (words.drop (k + 8 * j)).take p.size⟩ : Patch UInt8) ∈ patches words k ps := by
  induction ps generalizing j k with
  | nil => cases h
  | cons q ps ih =>
    rw [patches]
    cases j with
    | zero =>
      obtain rfl := Option.some.inj h
      exact List.mem_cons_self
    | succ j =>
      have hk : k + 8 * (j + 1) = k + 8 + 8 * j := by omega
      rw [hk]
      exact List.mem_cons_of_mem _ (ih h (k + 8))

/-- A patch is one of the parts, with all its bytes. -/
theorem mem_patches {ps : List Part} {k : Nat} (hsize : ∀ p ∈ ps, p.size ≤ 8)
    (hwords : k + 8 * ps.length ≤ words.length) {q : Patch UInt8} (hq : q ∈ patches words k ps) :
    ∃ p ∈ ps, q.offset = p.offset ∧ q.bytes.length = p.size := by
  induction ps generalizing k with
  | nil => cases hq
  | cons p ps ih =>
    obtain ⟨hp, hps⟩ := List.forall_mem_cons.mp hsize
    rw [List.length_cons] at hwords
    rcases List.mem_cons.mp hq with rfl | hq
    · refine ⟨p, List.mem_cons_self, rfl, ?_⟩
      rw [List.length_take, List.length_drop]
      omega
    · obtain ⟨p', hp', heq⟩ := ih hps (by omega) hq
      exact ⟨p', List.mem_cons_of_mem _ hp', heq⟩

theorem patches_apart {ps : List Part} {k : Nat} (hsize : ∀ p ∈ ps, p.size ≤ 8)
    (hwords : k + 8 * ps.length ≤ words.length) (hapart : ps.Pairwise Part.Apart) :
    (patches words k ps).Pairwise Patch.Apart := by
  induction ps generalizing k with
  | nil => exact .nil
  | cons p ps ih =>
    obtain ⟨hp, hps⟩ := List.forall_mem_cons.mp hsize
    obtain ⟨hfirst, hrest⟩ := List.pairwise_cons.mp hapart
    rw [List.length_cons] at hwords
    refine List.pairwise_cons.mpr ⟨fun q hq => ?_, ih hps (by omega) hrest⟩
    obtain ⟨p', hp', hoffset, hlen⟩ := mem_patches hps (by omega) hq
    have hlen' : ((words.drop k).take p.size).length = p.size := by
      rw [List.length_take, List.length_drop]
      omega
    rw [Patch.Apart, hoffset, hlen, hlen']
    exact hfirst p' hp'

end

mutual

theorem parts_size : ∀ t : DType, t.byValue = true → ∀ base : Nat,
    ∀ p ∈ t.parts base, p.size ≤ 8
  | .typedef _ t, h, base => parts_size t h base
  | .qual _ t, h, base => parts_size t h base
  | .ptr _ _ _, _, _ => List.forall_mem_singleton.mpr (Nat.le_refl 8)
  | .basic _ _ n, h, _ => by
    simp only [DType.byValue, Bool.and_eq_true, decide_eq_true_eq] at h
    refine List.forall_mem_singleton.mpr ?_
    dsimp only
    omega
  | .struct _ s b fs, h, base => by
    rw [DType.parts]
    cases hkind : structKind s fs with
    | plain => exact fields_parts_size fs b (byValue_plain hkind h).2 base
    | _ => simp
  | .func _ _ _, h, _ => by cases h
  | .other _ _ _, h, _ => by cases h

theorem fields_parts_size : ∀ (fs : Fields) (size : Int), fs.byValue size = true →
    ∀ base : Nat, ∀ p ∈ fs.parts base, p.size ≤ 8
  | .nil, _, _, _ => nofun
  | .cons _ off t rest, size, h, base => by
    obtain ⟨-, -, ht, -, hrest⟩ := fields_byValue_cons h
    rw [Fields.parts]
    exact List.forall_mem_append.mpr ⟨parts_size t ht _, fields_parts_size rest size hrest base⟩

end

section
variable {t : DType} {words : List UInt8}

/-- The state that `scatterWords` ends in. -/
def scattered (t : DType) (words : List UInt8) : Scatter :=
  t.scatter words 0 { img := List.replicate t.size.toNat 0 }

theorem scatterWords_eq (h : t.byValue = true) :
    scatterWords t words = (scattered t words).img := by
  have hpos := byValue_size_pos t h
  rw [scatterWords, if_neg (by omega)]
  rfl

theorem scattered_eq (h : t.byValue = true) (hwords : 8 * t.leafWords ≤ words.length) :
    scattered t words =
      Scatter.patched { img := List.replicate t.size.toNat 0 } words (t.parts 0) :=
  scatter_patched words t h 0 { img := List.replicate t.size.toNat 0 } (by dsimp only; omega)
    (by rw [List.length_replicate]; omega)

/-- It has consumed the words that `abiWordCount` counts. -/
theorem scattered_consume (h : t.byValue = true) (hwords : 8 * t.leafWords ≤ words.length) :
    (scattered t words).consume = 8 * t.abiWordCount := by
  rw [scattered_eq h hwords, (byValue_abiWordCount t h).1, ← parts_length t 0, Scatter.patched]
  exact Nat.zero_add _

theorem patches_fit (h : t.byValue = true) (hwords : 8 * t.leafWords ≤ words.length) :
    ∀ q ∈ patches words 0 (t.parts 0),
      q.Fits (List.replicate t.size.toNat (0 : UInt8)).length := by
  intro q hq
  rw [← parts_length t 0] at hwords
  obtain ⟨p, hp, hoffset, hlen⟩ := mem_patches (parts_size t h 0) (by omega) hq
  have hwithin := (parts_within t h 0 p hp).2
  rw [Patch.Fits, hoffset, hlen, List.length_replicate]
  omega

/-- Each part holds the low bytes of its word. -/
theorem scatterWords_inside (h : t.byValue = true) (hwords : 8 * t.leafWords ≤ words.length)
    {j : Nat} {p : Part} (hp : (t.parts 0)[j]? = some p) {i : Nat} (hi : p.Has i) :
    (scatterWords t words)[i]? = words[8 * j + (i - p.offset)]? := by
  have hmem : _ ∈ patches words 0 (t.parts 0) := patches_getElem hp 0
  have hlen := hwords
  rw [← parts_length t 0] at hlen
  obtain ⟨hlow, hhigh⟩ := hi
  have hj : j < (t.parts 0).length := (List.getElem?_eq_some_iff.mp hp).1
  have hsize := parts_size t h 0 p (List.mem_of_getElem? hp)
  rw [Nat.zero_add] at hmem
  have hbytes : ((words.drop (8 * j)).take p.size).length = p.size := by
    rw [List.length_take, List.length_drop]
    omega
  have hhas : Patch.Has ⟨p.offset, (words.drop (8 * j)).take p.size⟩ i := by
    refine ⟨hlow, ?_⟩
    rw [hbytes]
    exact hhigh
  rw [scatterWords_eq h, scattered_eq h hwords]
  have hinside := Patch.apply_inside (patches_fit h hwords)
    (patches_apart (parts_size t h 0) (by omega) (parts_apart t h 0)) hmem hhas
  refine hinside.trans ?_
  dsimp only
  rw [List.getElem?_take_of_lt (by omega), List.getElem?_drop]

/-- The bytes of no part are zero. -/
theorem scatterWords_padding (h : t.byValue = true) (hwords : 8 * t.leafWords ≤ words.length)
    {i : Nat} (hi : i < t.size.toNat) (hno : ∀ p ∈ t.parts 0, ¬ p.Has i) :
    (scatterWords t words)[i]? = some 0 := by
  have hlen := hwords
  rw [← parts_length t 0] at hlen
  rw [scatterWords_eq h, scattered_eq h hwords]
  refine (Patch.apply_outside (patches_fit h hwords) fun q hq hhas => ?_).trans ?_
  · obtain ⟨p, hp, hoffset, hlen'⟩ := mem_patches (parts_size t h 0) (by omega) hq
    rw [Patch.Has, hoffset, hlen'] at hhas
    exact hno p hp hhas
  · rw [List.getElem?_replicate, if_pos hi]

theorem scatterWords_length (h : t.byValue = true) (hwords : 8 * t.leafWords ≤ words.length) :
    (scatterWords t words).length = t.size.toNat := by
  rw [scatterWords_eq h, scattered_eq h hwords]
  exact (Patch.apply_length (patches_fit h hwords)).trans (List.length_replicate ..)

end

end GoFtrace.Uprobe
