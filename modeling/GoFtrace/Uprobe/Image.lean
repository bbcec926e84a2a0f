import GoFtrace.Uprobe.Layout
import GoFtrace.Uprobe.Value

/-!
# The image of a struct in registers

`scatterWords` copies the words of a struct into an image of its memory. The headers of the
strings, slices and interfaces in the struct are then read from the image, which works when
no other field was copied over them.

* `scatter_scattered`: structs that are laid out by the compiler.
* `agree_iff`: which structs keep their pointers, decided by marking the bytes of the words.
-/

namespace GoFtrace.Uprobe

open Lib (word)

/-! ## Layouts -/

mutual

/-- A type as the compiler lays it out: fields one after the other within the struct, and
what the code takes for a string, a slice or an interface as long as one. -/
def laidOut : DType → Bool
  | .typedef _ t => laidOut t
  | .qual _ t => laidOut t
  | .ptr _ n _ => n == 8
  | .basic _ _ n => decide (0 < n) && decide (n ≤ 8)
  | .struct _ s n fs =>
    match structKind s fs with
    | .plain => decide (0 < n) && fieldsLaidOut 0 n fs
    | kind => n == 8 * kind.words
  | _ => false

/-- Fields between two offsets. -/
def fieldsLaidOut (lo hi : Int) : Fields → Bool
  | .nil => true
  | .cons _ off t rest =>
    decide (lo ≤ off) && decide (off + t.size ≤ hi) && laidOut t &&
      fieldsLaidOut (off + t.size) hi rest

end

theorem laidOut_size_pos : ∀ t : DType, laidOut t = true → 0 < t.size
  | .typedef _ t, h => laidOut_size_pos t h
  | .qual _ t, h => laidOut_size_pos t h
  | .ptr _ n _, h => by
    have hn : n = 8 := by simpa [laidOut] using h
    rw [DType.size, hn]
    decide
  | .basic _ _ n, h => by
    simp only [laidOut, Bool.and_eq_true, decide_eq_true_eq] at h
    exact h.1
  | .struct _ s n fs, h => by
    rw [laidOut] at h
    rw [DType.size]
    cases hkind : structKind s fs with
    | plain =>
      simp only [hkind, Bool.and_eq_true, decide_eq_true_eq] at h
      exact h.1
    | string =>
      simp only [hkind, StructKind.words, beq_iff_eq] at h
      omega
    | slice =>
      simp only [hkind, StructKind.words, beq_iff_eq] at h
      omega
    | iface nonEmpty =>
      simp only [hkind, StructKind.words, beq_iff_eq] at h
      omega
  | .func _ _ _, h => by cases h
  | .other _ _ _, h => by cases h

mutual

/-- The image holds the words of each pointer, string, slice and interface in the struct;
`bytes` are the words that are left. -/
def Shows : DType → List UInt8 → List UInt8 → Prop
  | .typedef _ t, bytes, img => Shows t bytes img
  | .qual _ t, bytes, img => Shows t bytes img
  | .struct _ s _ fs, bytes, img =>
    match structKind s fs with
    | .plain => FieldsShow fs bytes img
    | kind => img.take (8 * kind.words) = bytes.take (8 * kind.words)
  | .ptr _ _ _, bytes, img => img.take 8 = bytes.take 8
  | _, _, _ => True

def FieldsShow : Fields → List UInt8 → List UInt8 → Prop
  | .nil, _, _ => True
  | .cons _ off t rest, bytes, img =>
    Shows t bytes (img.drop off.toNat) ∧ FieldsShow rest (bytes.drop (8 * t.leafWords)) img

end

theorem laidOut_header {s n : String} {b : Int} {fs : Fields} (hkind : structKind s fs ≠ .plain)
    (h : laidOut (.struct n s b fs) = true) : b = 8 * (structKind s fs).words := by
  rw [laidOut] at h
  split at h
  · contradiction
  · simpa using h

theorem shows_header {s n : String} {b : Int} {fs : Fields} {bytes img : List UInt8}
    (hkind : structKind s fs ≠ .plain) :
    Shows (.struct n s b fs) bytes img ↔
      img.take (8 * (structKind s fs).words) = bytes.take (8 * (structKind s fs).words) := by
  rw [Shows]
  split
  · contradiction
  · exact Iff.rfl

theorem take_drop_congr {xs ys : List UInt8} {n k j : Nat} (h : xs.take n = ys.take n)
    (hle : k + j ≤ n) : (xs.drop k).take j = (ys.drop k).take j := by
  have hx : (xs.drop k).take j = ((xs.take n).drop k).take j := by
    rw [List.drop_take, List.take_take, Nat.min_eq_left (by omega)]
  have hy : (ys.drop k).take j = ((ys.take n).drop k).take j := by
    rw [List.drop_take, List.take_take, Nat.min_eq_left (by omega)]
  rw [hx, hy, h]

mutual

/-- What an image shows of a value depends on the bytes of the value. -/
theorem shows_congr : ∀ (t : DType), laidOut t = true → ∀ {bytes img img' : List UInt8},
    img.take t.size.toNat = img'.take t.size.toNat → Shows t bytes img → Shows t bytes img'
  | .typedef _ t, hlaid, _, _, _, h, hshow => shows_congr t hlaid h hshow
  | .qual _ t, hlaid, _, _, _, h, hshow => shows_congr t hlaid h hshow
  | .struct _ s n fs, hlaid, bytes, img, img', h, hshow => by
    rw [DType.size] at h
    by_cases hkind : structKind s fs = .plain
    · simp only [laidOut, hkind, Bool.and_eq_true, decide_eq_true_eq] at hlaid
      simp only [Shows, hkind] at hshow ⊢
      exact fieldsShow_congr fs 0 n (Int.le_refl 0) hlaid.2 h hshow
    · have hn : n = 8 * (structKind s fs).words := laidOut_header hkind hlaid
      have htoNat : n.toNat = 8 * (structKind s fs).words := by omega
      rw [htoNat] at h
      rw [shows_header hkind] at hshow ⊢
      rw [← h, hshow]
  | .ptr _ n _, hlaid, bytes, img, img', h, hshow => by
    have hn : n = 8 := by simpa [laidOut] using hlaid
    have h8 : img.take 8 = img'.take 8 := by
      rw [DType.size, hn] at h
      exact h
    rw [Shows] at hshow ⊢
    rw [← h8, hshow]
  | .basic _ _ _, _, _, _, _, _, _ => trivial
  | .func _ _ _, _, _, _, _, _, _ => trivial
  | .other _ _ _, _, _, _, _, _, _ => trivial

theorem fieldsShow_congr : ∀ (fs : Fields) (lo hi : Int), 0 ≤ lo →
    fieldsLaidOut lo hi fs = true → ∀ {bytes img img' : List UInt8},
    img.take hi.toNat = img'.take hi.toNat → FieldsShow fs bytes img → FieldsShow fs bytes img'
  | .nil, _, _, _, _, _, _, _, _, _ => trivial
  | .cons _ off t rest, lo, hi, hlo, hlaid, bytes, img, img', h, hshow => by
    simp only [fieldsLaidOut, Bool.and_eq_true, decide_eq_true_eq] at hlaid
    obtain ⟨⟨⟨hoff, hend⟩, ht⟩, hrest⟩ := hlaid
    have hpos := laidOut_size_pos t ht
    rw [FieldsShow] at hshow ⊢
    refine ⟨shows_congr t ht ?_ hshow.1, fieldsShow_congr rest _ hi (by omega) hrest h hshow.2⟩
    exact take_drop_congr h (by omega)

end

/-- Bytes outside a range keep their values. -/
structure Outside (base n : Nat) (img img' : List UInt8) : Prop where
  length : img'.length = img.length
  before : img'.take base = img.take base
  after : img'.drop (base + n) = img.drop (base + n)

namespace Outside

theorem refl (base n : Nat) (img : List UInt8) : Outside base n img img := ⟨rfl, rfl, rfl⟩

/-- Changes inside two ranges of a larger one. -/
theorem trans {base n b₁ n₁ b₂ n₂ : Nat} {img img₁ img₂ : List UInt8}
    (h₁ : Outside b₁ n₁ img img₁) (h₂ : Outside b₂ n₂ img₁ img₂) (hb₁ : base ≤ b₁)
    (he₁ : b₁ + n₁ ≤ base + n) (hb₂ : base ≤ b₂) (he₂ : b₂ + n₂ ≤ base + n) :
    Outside base n img img₂ where
  length := h₂.length.trans h₁.length
  before := by
    have hx := congrArg (List.take base) h₂.before
    have hy := congrArg (List.take base) h₁.before
    simp only [List.take_take, Nat.min_eq_left hb₁, Nat.min_eq_left hb₂] at hx hy
    exact hx.trans hy
  after := by
    have hx := congrArg (List.drop (base + n - (b₂ + n₂))) h₂.after
    have hy := congrArg (List.drop (base + n - (b₁ + n₁))) h₁.after
    simp only [List.drop_drop, Nat.add_sub_cancel' he₁, Nat.add_sub_cancel' he₂] at hx hy
    exact hx.trans hy

/-- A smaller range before the changed one. -/
theorem take_drop {base n : Nat} {img img' : List UInt8} (h : Outside base n img img')
    {k j : Nat} (hle : k + j ≤ base) : (img'.drop k).take j = (img.drop k).take j :=
  take_drop_congr h.before hle

end Outside

theorem blit_fits (img bs : List UInt8) (base : Nat) (h : base + bs.length ≤ img.length) :
    Outside base bs.length img (blit img base bs) ∧
      ((blit img base bs).drop base).take bs.length = bs := by
  have hbase : (img.take base).length = base := by rw [List.length_take]; omega
  have heq : blit img base bs = img.take base ++ (bs ++ img.drop (base + bs.length)) := by
    rw [blit, if_pos ⟨Int.natCast_nonneg _, by exact_mod_cast h⟩, Int.toNat_natCast,
      List.append_assoc]
  rw [heq]
  refine ⟨⟨?_, ?_, ?_⟩, ?_⟩
  · simp only [List.length_append, List.length_take, List.length_drop]
    omega
  · rw [List.take_left' hbase]
  · rw [← List.append_assoc, List.drop_left' (by rw [List.length_append, hbase])]
  · rw [List.drop_left' hbase, List.take_left]

/-- What `walk` of `scatterWords` does with a value: it moves its words inside its range. -/
structure Scattered (t : DType) (bytes : List UInt8) (base : Nat) (s s' : Scatter) :
    Prop where
  consume : s'.consume = s.consume + 8 * t.leafWords
  outside : Outside base t.size.toNat s.img s'.img
  shows : Shows t bytes (s'.img.drop base)

/-- Moving `n` bytes, all of them present. -/
theorem move_fits {s : Scatter} {words : List UInt8} {base n : Nat} (step : Nat)
    (hwords : s.consume + n ≤ words.length) (himg : base + n ≤ s.img.length) :
    (s.move words base n step).consume = s.consume + step ∧
      Outside base n s.img (s.move words base n step).img ∧
      ((s.move words base n step).img.drop base).take n = (words.drop s.consume).take n := by
  have hlen : ((words.drop s.consume).take n).length = n := by
    rw [List.length_take, List.length_drop]
    omega
  have hblit := blit_fits s.img ((words.drop s.consume).take n) base (by omega)
  rw [hlen] at hblit
  refine ⟨rfl, ?_⟩
  rw [Scatter.move]
  dsimp only
  rw [if_pos hwords]
  exact hblit

/-- A word that is not part of a header. -/
theorem scatter_word {t : DType} {s : Scatter} {words : List UInt8} {base : Nat}
    (hsize : 0 < t.size) (hle : t.size ≤ 8) (hleaf : t.leafWords = 1)
    (hshows : ∀ bytes img, img.take t.size.toNat = bytes.take t.size.toNat → Shows t bytes img)
    (hwords : s.consume + 8 ≤ words.length) (himg : base + t.size.toNat ≤ s.img.length) :
    Scattered t (words.drop s.consume) base s
      (s.move words base (if t.size ≤ 0 then 8 else min t.size.toNat 8) 8) := by
  rw [if_neg (by omega), Nat.min_eq_left (by omega)]
  obtain ⟨hconsume, houtside, htake⟩ := move_fits (s := s) (n := t.size.toNat) 8
    (show s.consume + t.size.toNat ≤ words.length by omega) himg
  exact ⟨by rw [hconsume, hleaf], houtside, hshows _ _ htake⟩

mutual

theorem scatter_scattered (words : List UInt8) : ∀ (t : DType), t.regular = true →
    laidOut t = true → ∀ (base : Nat) (s : Scatter),
    s.consume + 8 * t.leafWords ≤ words.length → base + t.size.toNat ≤ s.img.length →
    Scattered t (words.drop s.consume) base s (t.scatter words base s)
  | .typedef _ t, hreg, hlaid, base, s, hwords, himg => by
    have h := scatter_scattered words t hreg hlaid base s hwords himg
    exact ⟨h.consume, h.outside, h.shows⟩
  | .qual _ t, hreg, hlaid, base, s, hwords, himg => by
    have h := scatter_scattered words t hreg hlaid base s hwords himg
    exact ⟨h.consume, h.outside, h.shows⟩
  | .struct n name b fs, hreg, hlaid, base, s, hwords, himg => by
    by_cases hkind : structKind name fs = .plain
    · rw [laidOut, hkind] at hlaid
      rw [DType.regular, Bool.and_eq_true] at hreg
      rw [DType.leafWords, hkind] at hwords
      rw [DType.size] at himg
      simp only [Bool.and_eq_true, decide_eq_true_eq] at hlaid
      rw [DType.scatter, if_pos hkind]
      obtain ⟨hconsume, houtside, hshows⟩ := scatter_fields words fs hreg.2 0 b (Int.le_refl 0)
        hlaid.2 base s hwords himg
      refine ⟨?_, houtside, ?_⟩
      · rw [DType.leafWords, hkind]
        exact hconsume
      · rw [Shows, hkind]
        exact hshows
    · have hleaf : (DType.struct n name b fs).leafWords = (structKind name fs).words := by
        rw [DType.leafWords]
        split
        · contradiction
        · rfl
      have hb : b = 8 * (structKind name fs).words := laidOut_header hkind hlaid
      have hcount : (DType.struct n name b fs).abiWordCount = (structKind name fs).words := by
        rw [← hleaf]
        refine DType.abiWordCount_eq _ hreg ?_
        rw [DType.abiWordCount]
        cases h : structKind name fs with
        | plain => exact absurd h hkind
        | string => simp [structKind_string h]
        | slice =>
          obtain ⟨hs, hl⟩ := structKind_slice h
          rw [hl]
          split <;> simp
        | iface nonEmpty => simp [(structKind_iface h).1]
      rw [hleaf] at hwords
      rw [DType.size, hb] at himg
      rw [DType.scatter, if_neg hkind, hcount, Nat.mul_comm _ 8]
      obtain ⟨hconsume, houtside, htake⟩ := move_fits
        (8 * (structKind name fs).words) hwords
        (show base + 8 * (structKind name fs).words ≤ s.img.length by omega)
      refine ⟨by rw [hconsume, hleaf], ?_, (shows_header hkind).mpr htake⟩
      rw [DType.size, hb]
      exact houtside
  | .ptr x n e, _, hlaid, base, s, hwords, himg => by
    have hn : n = 8 := by simpa [laidOut] using hlaid
    subst hn
    exact scatter_word (t := .ptr x 8 e) (by decide : (0 : Int) < 8) (by decide : (8 : Int) ≤ 8) rfl
      (fun _ _ h => h) hwords himg
  | .basic k x n, _, hlaid, base, s, hwords, himg => by
    simp only [laidOut, Bool.and_eq_true, decide_eq_true_eq] at hlaid
    exact scatter_word (t := .basic k x n) hlaid.1 hlaid.2 rfl (fun _ _ _ => trivial) hwords himg
  | .func _ _ _, _, hlaid, _, _, _, _ => by cases hlaid
  | .other _ _ _, _, hlaid, _, _, _, _ => by cases hlaid

theorem scatter_fields (words : List UInt8) : ∀ (fs : Fields), fs.regular = true →
    ∀ (lo hi : Int), 0 ≤ lo → fieldsLaidOut lo hi fs = true →
    ∀ (base : Nat) (s : Scatter),
    s.consume + 8 * fs.leafWords ≤ words.length → base + hi.toNat ≤ s.img.length →
    (fs.scatter words base s).consume = s.consume + 8 * fs.leafWords ∧
      Outside (base + lo.toNat) (hi.toNat - lo.toNat) s.img (fs.scatter words base s).img ∧
      FieldsShow fs (words.drop s.consume) ((fs.scatter words base s).img.drop base)
  | .nil, _, _, _, _, _, base, s, _, _ => ⟨rfl, .refl _ _ _, trivial⟩
  | .cons _ off t rest, hreg, lo, hi, hlo, hlaid, base, s, hwords, himg => by
    simp only [fieldsLaidOut, Bool.and_eq_true, decide_eq_true_eq] at hlaid
    obtain ⟨⟨⟨hoff, hend⟩, ht⟩, hrest⟩ := hlaid
    rw [Fields.regular, Bool.and_eq_true] at hreg
    rw [Fields.leafWords] at hwords ⊢
    have hpos := laidOut_size_pos t ht
    obtain ⟨k, rfl⟩ := Int.eq_ofNat_of_zero_le (by omega : 0 ≤ off)
    have hcast : ((base : Int) + (k : Int)) = ((base + k : Nat) : Int) := by push_cast; rfl
    have hhead := scatter_scattered words t hreg.1 ht (base + k) s (by omega) (by omega)
    obtain ⟨hconsume, houtside, hshows⟩ := scatter_fields words rest hreg.2 (k + t.size) hi
      (by omega) hrest base (t.scatter words (base + k : Nat) s)
      (by rw [hhead.consume]; omega) (by rw [hhead.outside.length]; exact himg)
    rw [Fields.scatter, hcast]
    refine ⟨by rw [hconsume, hhead.consume]; omega, ?_, ?_, ?_⟩
    · exact hhead.outside.trans houtside (by omega) (by omega) (by omega) (by omega)
    · -- the later fields leave the bytes of this one alone
      rw [List.drop_drop, Int.toNat_natCast]
      exact shows_congr t ht (houtside.take_drop (by omega)).symm hhead.shows
    · rw [List.drop_drop, ← hhead.consume]
      exact hshows

end
/-! ## Pointers -/

theorem fieldMem_of_nonneg {img : List UInt8} {off : Int} (h : 0 ≤ off) :
    fieldMem img off = img.drop off.toNat := by
  unfold fieldMem
  split
  · rfl
  · rename_i hno
    exact (List.drop_eq_nil_of_le (by omega)).symm

/-- The pointer of a header in an image, if the image holds the header up to there. -/
def StructKind.pointer (kind : StructKind) (img : List UInt8) : List UInt8 :=
  match kind with
  | .iface _ => if 16 ≤ img.length then (img.drop 8).take 8 else []
  | _ => if 8 ≤ img.length then img.take 8 else []

mutual

/-- The pointers that `consumeRegCaptures` finds in the image of a struct. -/
def DType.pointers : DType → List UInt8 → List (List UInt8)
  | .typedef _ t, img => t.pointers img
  | .qual _ t, img => t.pointers img
  | .struct _ s _ fs, img =>
    match structKind s fs with
    | .plain => fs.pointers img
    | kind => [kind.pointer img]
  | _, _ => []

def Fields.pointers : Fields → List UInt8 → List (List UInt8)
  | .nil, _ => []
  | .cons _ off t rest, img => t.pointers (fieldMem img off) ++ rest.pointers img

end

mutual

/-- The same pointers in the words of the struct. -/
def DType.ownPointers : DType → List UInt8 → List (List UInt8)
  | .typedef _ t, bytes => t.ownPointers bytes
  | .qual _ t, bytes => t.ownPointers bytes
  | .struct _ s _ fs, bytes =>
    match structKind s fs with
    | .plain => fs.ownPointers bytes
    | kind => [kind.pointer bytes]
  | _, _ => []

def Fields.ownPointers : Fields → List UInt8 → List (List UInt8)
  | .nil, _ => []
  | .cons _ _ t rest, bytes =>
    t.ownPointers bytes ++ rest.ownPointers (bytes.drop (8 * t.leafWords))

end

/-- A pointer in the image is the one in the words, or there is none. -/
def AtHome (pointer own : List UInt8) : Prop := (∀ b ∈ pointer, b = 0) ∨ pointer = own

instance (pointer own : List UInt8) : Decidable (AtHome pointer own) :=
  inferInstanceAs (Decidable (_ ∨ _))

/-- The renderer finds the pointers of a struct with some words, or none. -/
def Agree (t : DType) (bytes : List UInt8) : Prop :=
  List.Forall₂ (fun pointer own => word pointer = 0 ∨ word pointer = word own)
    (t.pointers (scatterWords t bytes)) (t.ownPointers bytes)

/-- Bytes that are told apart. -/
def marks (n : Nat) : List UInt8 := (List.range n).map fun i => UInt8.ofNat (i + 1)

/-- No field of the struct is copied over the pointer of another. -/
def inPlace (t : DType) : Bool :=
  ((t.pointers (scatterWords t (marks (8 * t.leafWords)))).zip
    (t.ownPointers (marks (8 * t.leafWords)))).all fun (pointer, own) =>
      decide (AtHome pointer own)

/-! ## Renaming bytes -/

section
variable (f : UInt8 → UInt8)

theorem blit_map (img : List UInt8) (base : Int) (bs : List UInt8) :
    blit (img.map f) base (bs.map f) = (blit img base bs).map f := by
  unfold blit
  rw [List.length_map, List.length_map]
  split
  · simp
  · rfl

/-- The bytes of an image, renamed. -/
def Scatter.map (s : Scatter) : Scatter := { img := s.img.map f, consume := s.consume }

theorem move_map (s : Scatter) (words : List UInt8) (base : Int) (n step : Nat) :
    (s.map f).move (words.map f) base n step = (s.move words base n step).map f := by
  unfold Scatter.move Scatter.map
  dsimp only
  rw [List.length_map]
  split
  · rw [← List.map_drop, ← List.map_take, blit_map]
  · rfl

mutual

theorem scatter_map (words : List UInt8) : ∀ (t : DType) (base : Int) (s : Scatter),
    t.scatter (words.map f) base (s.map f) = (t.scatter words base s).map f
  | .typedef _ t, base, s => scatter_map words t base s
  | .qual _ t, base, s => scatter_map words t base s
  | .struct _ name _ fs, base, s => by
    rw [DType.scatter, DType.scatter]
    split
    · exact scatter_map_fields words fs base s
    · exact move_map f s words base _ _
  | .ptr _ _ _, base, s => move_map f s words base _ _
  | .basic _ _ _, base, s => move_map f s words base _ _
  | .func _ _ _, base, s => move_map f s words base _ _
  | .other _ _ _, base, s => move_map f s words base _ _

theorem scatter_map_fields (words : List UInt8) : ∀ (fs : Fields) (base : Int) (s : Scatter),
    fs.scatter (words.map f) base (s.map f) = (fs.scatter words base s).map f
  | .nil, _, _ => rfl
  | .cons _ off t rest, base, s => by
    rw [Fields.scatter, Fields.scatter, scatter_map words t, scatter_map_fields words rest]

end

/-- The image of renamed words is the renamed image. -/
theorem scatterWords_map (hf : f 0 = 0) (t : DType) (words : List UInt8) :
    scatterWords t (words.map f) = (scatterWords t words).map f := by
  unfold scatterWords
  split
  · rfl
  · have hzero : ({ img := List.replicate t.size.toNat 0 } : Scatter) =
        ({ img := List.replicate t.size.toNat 0 } : Scatter).map f := by
      simp [Scatter.map, hf]
    conv_lhs => rw [hzero, scatter_map]
    rfl

theorem pointer_map (kind : StructKind) (img : List UInt8) :
    kind.pointer (img.map f) = (kind.pointer img).map f := by
  unfold StructKind.pointer
  cases kind <;> simp only [List.length_map] <;> split <;> simp [List.map_take, List.map_drop]

theorem fieldMem_map (img : List UInt8) (off : Int) :
    fieldMem (img.map f) off = (fieldMem img off).map f := by
  unfold fieldMem
  rw [List.length_map]
  split
  · rw [List.map_drop]
  · rfl

mutual

theorem pointers_map : ∀ (t : DType) (img : List UInt8),
    t.pointers (img.map f) = (t.pointers img).map (List.map f)
  | .typedef _ t, img => pointers_map t img
  | .qual _ t, img => pointers_map t img
  | .struct _ s _ fs, img => by
    rw [DType.pointers, DType.pointers]
    cases structKind s fs with
    | plain => exact pointers_map_fields fs img
    | string => exact congrArg (fun x => [x]) (pointer_map f _ img)
    | slice => exact congrArg (fun x => [x]) (pointer_map f _ img)
    | iface nonEmpty => exact congrArg (fun x => [x]) (pointer_map f _ img)
  | .ptr _ _ _, _ => rfl
  | .basic _ _ _, _ => rfl
  | .func _ _ _, _ => rfl
  | .other _ _ _, _ => rfl

theorem pointers_map_fields : ∀ (fs : Fields) (img : List UInt8),
    fs.pointers (img.map f) = (fs.pointers img).map (List.map f)
  | .nil, _ => rfl
  | .cons _ off t rest, img => by
    rw [Fields.pointers, Fields.pointers, fieldMem_map, pointers_map t, pointers_map_fields rest,
      List.map_append]

end

mutual

theorem ownPointers_map : ∀ (t : DType) (bytes : List UInt8),
    t.ownPointers (bytes.map f) = (t.ownPointers bytes).map (List.map f)
  | .typedef _ t, bytes => ownPointers_map t bytes
  | .qual _ t, bytes => ownPointers_map t bytes
  | .struct _ s _ fs, bytes => by
    rw [DType.ownPointers, DType.ownPointers]
    cases structKind s fs with
    | plain => exact ownPointers_map_fields fs bytes
    | string => exact congrArg (fun x => [x]) (pointer_map f _ bytes)
    | slice => exact congrArg (fun x => [x]) (pointer_map f _ bytes)
    | iface nonEmpty => exact congrArg (fun x => [x]) (pointer_map f _ bytes)
  | .ptr _ _ _, _ => rfl
  | .basic _ _ _, _ => rfl
  | .func _ _ _, _ => rfl
  | .other _ _ _, _ => rfl

theorem ownPointers_map_fields : ∀ (fs : Fields) (bytes : List UInt8),
    fs.ownPointers (bytes.map f) = (fs.ownPointers bytes).map (List.map f)
  | .nil, _ => rfl
  | .cons _ off t rest, bytes => by
    rw [Fields.ownPointers, Fields.ownPointers, ← List.map_drop, ownPointers_map t,
      ownPointers_map_fields rest, List.map_append]

end

end

/-! ## The number and the lengths of the pointers -/

mutual

theorem pointers_length : ∀ (t : DType) (img : List UInt8),
    (t.pointers img).length = t.extraCaptures false
  | .typedef _ t, img => pointers_length t img
  | .qual _ t, img => pointers_length t img
  | .struct _ s _ fs, img => by
    rw [DType.pointers, DType.extraCaptures]
    cases structKind s fs with
    | plain => exact pointers_length_fields fs img
    | _ => rfl
  | .ptr _ _ _, _ => rfl
  | .basic _ _ _, _ => rfl
  | .func _ _ _, _ => rfl
  | .other _ _ _, _ => rfl

theorem pointers_length_fields : ∀ (fs : Fields) (img : List UInt8),
    (fs.pointers img).length = fs.extraCaptures false
  | .nil, _ => rfl
  | .cons _ off t rest, img => by
    rw [Fields.pointers, List.length_append, pointers_length t, pointers_length_fields rest,
      Fields.extraCaptures]

end

mutual

theorem ownPointers_length : ∀ (t : DType) (bytes : List UInt8),
    (t.ownPointers bytes).length = t.extraCaptures false
  | .typedef _ t, bytes => ownPointers_length t bytes
  | .qual _ t, bytes => ownPointers_length t bytes
  | .struct _ s _ fs, bytes => by
    rw [DType.ownPointers, DType.extraCaptures]
    cases structKind s fs with
    | plain => exact ownPointers_length_fields fs bytes
    | _ => rfl
  | .ptr _ _ _, _ => rfl
  | .basic _ _ _, _ => rfl
  | .func _ _ _, _ => rfl
  | .other _ _ _, _ => rfl

theorem ownPointers_length_fields : ∀ (fs : Fields) (bytes : List UInt8),
    (fs.ownPointers bytes).length = fs.extraCaptures false
  | .nil, _ => rfl
  | .cons _ _ t rest, bytes => by
    rw [Fields.ownPointers, List.length_append, ownPointers_length t,
      ownPointers_length_fields rest, Fields.extraCaptures]

end

theorem pointer_length {kind : StructKind} {img : List UInt8} (h : 16 ≤ img.length) :
    (kind.pointer img).length = 8 := by
  unfold StructKind.pointer
  cases kind <;> dsimp only <;> rw [if_pos (by omega)] <;> simp <;> omega

theorem pointer_length_le (kind : StructKind) (img : List UInt8) :
    (kind.pointer img).length = 0 ∨ (kind.pointer img).length = 8 := by
  unfold StructKind.pointer
  cases kind <;> dsimp only <;> split <;> simp <;> omega

mutual

/-- A pointer found in an image has eight bytes or none. -/
theorem pointers_size : ∀ (t : DType) (img : List UInt8),
    ∀ p ∈ t.pointers img, p.length = 0 ∨ p.length = 8
  | .typedef _ t, img => pointers_size t img
  | .qual _ t, img => pointers_size t img
  | .struct _ s _ fs, img => by
    rw [DType.pointers]
    cases structKind s fs with
    | plain => exact pointers_size_fields fs img
    | string => exact List.forall_mem_singleton.mpr (pointer_length_le _ img)
    | slice => exact List.forall_mem_singleton.mpr (pointer_length_le _ img)
    | iface nonEmpty => exact List.forall_mem_singleton.mpr (pointer_length_le _ img)
  | .ptr _ _ _, _ => fun _ h => absurd h List.not_mem_nil
  | .basic _ _ _, _ => fun _ h => absurd h List.not_mem_nil
  | .func _ _ _, _ => fun _ h => absurd h List.not_mem_nil
  | .other _ _ _, _ => fun _ h => absurd h List.not_mem_nil

theorem pointers_size_fields : ∀ (fs : Fields) (img : List UInt8),
    ∀ p ∈ fs.pointers img, p.length = 0 ∨ p.length = 8
  | .nil, _ => fun _ h => absurd h List.not_mem_nil
  | .cons _ off t rest, img => by
    rw [Fields.pointers]
    exact List.forall_mem_append.mpr ⟨pointers_size t _, pointers_size_fields rest img⟩

end

mutual

/-- The words hold every pointer of the struct. -/
theorem ownPointers_size : ∀ (t : DType) (bytes : List UInt8), 8 * t.leafWords ≤ bytes.length →
    ∀ p ∈ t.ownPointers bytes, p.length = 8
  | .typedef _ t, bytes, h => ownPointers_size t bytes h
  | .qual _ t, bytes, h => ownPointers_size t bytes h
  | .struct _ s _ fs, bytes, h => by
    rw [DType.leafWords] at h
    rw [DType.ownPointers]
    cases hkind : structKind s fs with
    | plain =>
      rw [hkind] at h
      exact ownPointers_size_fields fs bytes h
    | string =>
      simp only [hkind, StructKind.words] at h
      exact List.forall_mem_singleton.mpr (pointer_length (by omega))
    | slice =>
      simp only [hkind, StructKind.words] at h
      exact List.forall_mem_singleton.mpr (pointer_length (by omega))
    | iface nonEmpty =>
      simp only [hkind, StructKind.words] at h
      exact List.forall_mem_singleton.mpr (pointer_length (by omega))
  | .ptr _ _ _, _, _ => fun _ h => absurd h List.not_mem_nil
  | .basic _ _ _, _, _ => fun _ h => absurd h List.not_mem_nil
  | .func _ _ _, _, _ => fun _ h => absurd h List.not_mem_nil
  | .other _ _ _, _, _ => fun _ h => absurd h List.not_mem_nil

theorem ownPointers_size_fields : ∀ (fs : Fields) (bytes : List UInt8),
    8 * fs.leafWords ≤ bytes.length → ∀ p ∈ fs.ownPointers bytes, p.length = 8
  | .nil, _, _ => fun _ h => absurd h List.not_mem_nil
  | .cons _ _ t rest, bytes, h => by
    rw [Fields.leafWords] at h
    rw [Fields.ownPointers]
    exact List.forall_mem_append.mpr ⟨ownPointers_size t bytes (by omega),
      ownPointers_size_fields rest _ (by rw [List.length_drop]; omega)⟩

end

theorem pointer_subset (kind : StructKind) (img : List UInt8) : kind.pointer img ⊆ img := by
  unfold StructKind.pointer
  cases kind <;> dsimp only <;> split
  all_goals first
    | exact List.nil_subset _
    | exact List.take_subset _ _
    | exact fun b hb => List.mem_of_mem_drop (List.mem_of_mem_take hb)

mutual

theorem ownPointers_subset : ∀ (t : DType) (bytes : List UInt8),
    ∀ p ∈ t.ownPointers bytes, p ⊆ bytes
  | .typedef _ t, bytes => ownPointers_subset t bytes
  | .qual _ t, bytes => ownPointers_subset t bytes
  | .struct _ s _ fs, bytes => by
    rw [DType.ownPointers]
    cases structKind s fs with
    | plain => exact ownPointers_subset_fields fs bytes
    | string => exact List.forall_mem_singleton.mpr (pointer_subset _ bytes)
    | slice => exact List.forall_mem_singleton.mpr (pointer_subset _ bytes)
    | iface nonEmpty => exact List.forall_mem_singleton.mpr (pointer_subset _ bytes)
  | .ptr _ _ _, _ => fun _ h => absurd h List.not_mem_nil
  | .basic _ _ _, _ => fun _ h => absurd h List.not_mem_nil
  | .func _ _ _, _ => fun _ h => absurd h List.not_mem_nil
  | .other _ _ _, _ => fun _ h => absurd h List.not_mem_nil

theorem ownPointers_subset_fields : ∀ (fs : Fields) (bytes : List UInt8),
    ∀ p ∈ fs.ownPointers bytes, p ⊆ bytes
  | .nil, _ => fun _ h => absurd h List.not_mem_nil
  | .cons _ _ t rest, bytes => by
    rw [Fields.ownPointers]
    refine List.forall_mem_append.mpr ⟨ownPointers_subset t bytes, fun p hp => ?_⟩
    exact fun b hb => List.mem_of_mem_drop (ownPointers_subset_fields rest _ p hp hb)

end

/-! ## Which structs keep their pointers -/

theorem marks_length (n : Nat) : (marks n).length = n := by
  rw [marks, List.length_map, List.length_range]

theorem marks_toNat {n i : Nat} (hn : n < 256) (hi : i < (marks n).length) :
    ((marks n)[i]).toNat = i + 1 := by
  have hlt : i < n := by rwa [marks_length] at hi
  simp only [marks, List.getElem_map, List.getElem_range, UInt8.toNat_ofNat']
  omega

theorem marks_ne_zero {n : Nat} (hn : n < 256) {b : UInt8} (hb : b ∈ marks n) : b ≠ 0 := by
  obtain ⟨i, hi, rfl⟩ := List.mem_iff_getElem.mp hb
  intro hzero
  have h := marks_toNat hn hi
  rw [hzero] at h
  cases h

/-- Any words are the marks renamed. -/
theorem exists_rename {n : Nat} (hn : n < 256) {bytes : List UInt8} (hlen : bytes.length = n) :
    ∃ f : UInt8 → UInt8, f 0 = 0 ∧ bytes = (marks n).map f := by
  refine ⟨fun b => if b = 0 then 0 else bytes.getD (b.toNat - 1) 0, if_pos rfl, ?_⟩
  refine List.ext_getElem (by rw [List.length_map, marks_length, hlen]) fun i hi hi' => ?_
  have him : i < (marks n).length := by rwa [List.length_map] at hi'
  have hne := marks_ne_zero hn (List.getElem_mem him)
  rw [List.getElem_map, if_neg hne, marks_toNat hn him, Nat.add_sub_cancel,
    List.getD_eq_getElem?_getD, List.getElem?_eq_getElem hi]
  rfl

theorem inPlace_iff {t : DType} : inPlace t = true ↔
    List.Forall₂ AtHome (t.pointers (scatterWords t (marks (8 * t.leafWords))))
      (t.ownPointers (marks (8 * t.leafWords))) := by
  rw [List.forall₂_iff_zip, inPlace, List.all_eq_true]
  constructor
  · intro h
    refine ⟨by rw [pointers_length, ownPointers_length], fun {a b} hab => ?_⟩
    exact of_decide_eq_true (h (a, b) hab)
  · rintro ⟨-, h⟩ ⟨a, b⟩ hab
    exact decide_eq_true (h hab)

theorem agree_map {t : DType} {f : UInt8 → UInt8} (hf : f 0 = 0) (bytes : List UInt8) :
    Agree t (bytes.map f) ↔ List.Forall₂
      (fun pointer own => word (pointer.map f) = 0 ∨ word (pointer.map f) = word (own.map f))
      (t.pointers (scatterWords t bytes)) (t.ownPointers bytes) := by
  rw [Agree, scatterWords_map f hf, pointers_map, ownPointers_map, List.forall₂_map_left_iff,
    List.forall₂_map_right_iff]

/-- Two pointers that differ can be told apart by renaming their bytes. -/
theorem exists_apart {pointer own : List UInt8} (hpointer : pointer.length = 0 ∨ pointer.length = 8)
    (hown : own.length = 8) (hzero : ∀ b ∈ own, b ≠ 0) (hne : ¬ AtHome pointer own) :
    ∃ f : UInt8 → UInt8, f 0 = 0 ∧ word (pointer.map f) ≠ 0 ∧
      word (pointer.map f) ≠ word (own.map f) := by
  obtain ⟨hsome, hdiff⟩ := not_or.mp hne
  push Not at hsome
  obtain ⟨c, hc, hc0⟩ := hsome
  have hlen : pointer.length = 8 := by
    rcases hpointer with h | h
    · rw [List.length_eq_zero_iff.mp h] at hc
      cases hc
    · exact h
  obtain ⟨j, hj, hj', hbyte⟩ : ∃ (j : Nat) (hj : j < pointer.length) (hj' : j < own.length),
      pointer[j] ≠ own[j] := by
    by_contra hall
    push Not at hall
    exact hdiff (List.ext_getElem (hlen.trans hown.symm) hall)
  have hown0 := hzero _ (List.getElem_mem hj')
  let f : UInt8 → UInt8 := fun b => if b = 0 then 0 else if b = own[j] then 2 else 1
  have hf : ∀ b, b ≠ 0 → f b ≠ 0 := by
    intro b hb
    simp only [f, if_neg hb]
    split <;> decide
  refine ⟨f, if_pos rfl, fun h => ?_, fun h => ?_⟩
  · have hrep : word (pointer.map f) = word (List.replicate 8 0) := by
      rw [h, Lib.word_replicate_zero]
    have heq := Lib.word_inj (by rw [List.length_map, hlen]) List.length_replicate hrep
    have hmem : f c ∈ List.replicate 8 (0 : UInt8) := heq ▸ List.mem_map_of_mem hc
    exact hf c hc0 (List.eq_of_mem_replicate hmem)
  · have heq := Lib.word_inj (by rw [List.length_map, hlen]) (by rw [List.length_map, hown]) h
    have hbytes : f pointer[j] = f own[j] := by
      have hget := congrArg (fun l : List UInt8 => l[j]?) heq
      simpa [hj, hj'] using hget
    have htwo : f own[j] = 2 := by simp [f, hown0]
    rw [htwo] at hbytes
    simp only [f, if_neg hbyte] at hbytes
    split at hbytes <;> cases hbytes

/-- The renderer finds the pointers of a struct, whatever its words are, exactly when it finds
them in marked words. -/
theorem agree_iff {t : DType} (hsmall : 8 * t.leafWords < 256) :
    (∀ bytes : List UInt8, bytes.length = 8 * t.leafWords → Agree t bytes) ↔
      inPlace t = true := by
  rw [inPlace_iff]
  constructor
  · intro h
    refine List.forall₂_iff_zip.mpr ⟨by rw [pointers_length, ownPointers_length], ?_⟩
    intro pointer own hmem
    by_contra hne
    obtain ⟨hp, ho⟩ := List.of_mem_zip hmem
    have hbytes := Nat.le_of_eq (marks_length (8 * t.leafWords)).symm
    obtain ⟨f, hf, hno, hapart⟩ := exists_apart (pointers_size t _ pointer hp)
      (ownPointers_size t _ hbytes own ho)
      (fun b hb => marks_ne_zero hsmall (ownPointers_subset t _ own ho hb)) hne
    have hagree := h ((marks (8 * t.leafWords)).map f) (by rw [List.length_map, marks_length])
    rw [agree_map hf] at hagree
    rcases (List.forall₂_iff_zip.mp hagree).2 hmem with hzero | heq
    · exact hno hzero
    · exact hapart heq
  · intro h bytes hlen
    obtain ⟨f, hf, rfl⟩ := exists_rename hsmall hlen
    rw [agree_map hf]
    refine h.imp fun {pointer own} hhome => ?_
    rcases hhome with hzero | rfl
    · refine .inl (Lib.word_eq_zero fun b hb => ?_)
      obtain ⟨a, ha, rfl⟩ := List.mem_map.mp hb
      rw [hzero a ha, hf]
    · exact .inr rfl

/-! ## Structs laid out by the compiler -/

theorem take_congr_length {xs ys : List UInt8} {n : Nat} (h : xs.take n = ys.take n)
    (hlen : n ≤ ys.length) : n ≤ xs.length := by
  have h' := congrArg List.length h
  rw [List.length_take, List.length_take] at h'
  omega

theorem pointer_congr {kind : StructKind} {img bytes : List UInt8}
    (h : img.take 16 = bytes.take 16) (hlen : 16 ≤ bytes.length) :
    kind.pointer img = kind.pointer bytes := by
  have himg := take_congr_length h hlen
  have hfirst := take_drop_congr (k := 0) (j := 8) h (by omega)
  have hsecond := take_drop_congr (k := 8) (j := 8) h (by omega)
  rw [List.drop_zero, List.drop_zero] at hfirst
  unfold StructKind.pointer
  cases kind <;> dsimp only <;> rw [if_pos (by omega), if_pos (by omega)] <;> assumption

mutual

theorem pointers_of_shows : ∀ (t : DType), laidOut t = true → ∀ (bytes img : List UInt8),
    8 * t.leafWords ≤ bytes.length → Shows t bytes img → t.pointers img = t.ownPointers bytes
  | .typedef _ t, hlaid, bytes, img, hlen, h => pointers_of_shows t hlaid bytes img hlen h
  | .qual _ t, hlaid, bytes, img, hlen, h => pointers_of_shows t hlaid bytes img hlen h
  | .struct _ s n fs, hlaid, bytes, img, hlen, h => by
    rw [DType.leafWords] at hlen
    rw [Shows] at h
    rw [laidOut] at hlaid
    rw [DType.pointers, DType.ownPointers]
    cases hkind : structKind s fs with
    | plain =>
      simp only [hkind, Bool.and_eq_true, decide_eq_true_eq] at h hlaid hlen
      exact pointers_of_shows_fields fs 0 n (Int.le_refl 0) hlaid.2 bytes img hlen h
    | string =>
      simp only [hkind, StructKind.words] at h hlen
      exact congrArg (fun x => [x]) (pointer_congr h hlen)
    | slice =>
      simp only [hkind, StructKind.words] at h hlen
      have h' := take_drop_congr (k := 0) (j := 16) h (by omega)
      exact congrArg (fun x => [x]) (pointer_congr h' (by omega))
    | iface nonEmpty =>
      simp only [hkind, StructKind.words] at h hlen
      exact congrArg (fun x => [x]) (pointer_congr h hlen)
  | .ptr _ _ _, _, _, _, _, _ => rfl
  | .basic _ _ _, _, _, _, _, _ => rfl
  | .func _ _ _, _, _, _, _, _ => rfl
  | .other _ _ _, _, _, _, _, _ => rfl

theorem pointers_of_shows_fields : ∀ (fs : Fields) (lo hi : Int), 0 ≤ lo →
    fieldsLaidOut lo hi fs = true → ∀ (bytes img : List UInt8),
    8 * fs.leafWords ≤ bytes.length → FieldsShow fs bytes img →
    fs.pointers img = fs.ownPointers bytes
  | .nil, _, _, _, _, _, _, _, _ => rfl
  | .cons _ off t rest, lo, hi, hlo, hlaid, bytes, img, hlen, h => by
    simp only [fieldsLaidOut, Bool.and_eq_true, decide_eq_true_eq] at hlaid
    obtain ⟨⟨⟨hoff, hend⟩, ht⟩, hrest⟩ := hlaid
    have hpos := laidOut_size_pos t ht
    rw [Fields.leafWords] at hlen
    rw [FieldsShow] at h
    rw [Fields.pointers, Fields.ownPointers, fieldMem_of_nonneg (by omega),
      pointers_of_shows t ht bytes _ (by omega) h.1,
      pointers_of_shows_fields rest (off + t.size) hi (by omega) hrest _ img
        (by rw [List.length_drop]; omega) h.2]

end

/-- The pointers of a struct that is laid out by the compiler stay in place. -/
theorem inPlace_of_laidOut {t : DType} (hregular : t.regular = true) (hlaid : laidOut t = true) :
    inPlace t = true := by
  have hpos := laidOut_size_pos t hlaid
  have hlen := marks_length (8 * t.leafWords)
  have hscatter := scatter_scattered (marks (8 * t.leafWords)) t hregular hlaid 0
    { img := List.replicate t.size.toNat 0 } (by dsimp only; omega) (by simp)
  have hshows := hscatter.shows
  rw [List.drop_zero, List.drop_zero] at hshows
  have hpointers := pointers_of_shows t hlaid _ _ (Nat.le_of_eq hlen.symm) hshows
  rw [inPlace_iff, scatterWords, if_neg (by omega)]
  rw [Int.cast_ofNat_Int] at hpointers
  rw [hpointers]
  exact List.forall₂_same.mpr fun _ _ => .inr rfl

end GoFtrace.Uprobe
