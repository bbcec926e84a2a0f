import GoFtrace.Tracing.Fetched
import GoFtrace.Uprobe.Parts

/-!
# Structs rebuilt from registers

A struct passed by value, from the registers that hold it to the image that is rendered:
`emitABI` fetches one leaf for each word, and `scatterWords` copies the words back to the places
of the fields.

* `scatterWords_rebuilds`: the image is the struct, with the type words of its interfaces in the
  places of their itabs.
-/

namespace GoFtrace.Tracing

open Lib (Memory word wordBytes)
open Bpf (PtRegs UserMemory ArgData maxDataSize)
open Uprobe (DType Fields Part structKind ArgSpec FlatCtx LeafData abiRegs concatLeaves scattered
  scatterWords)

/-! ## The words -/

/-- The leaf of a word: the word of a register, or the type word behind an itab. -/
def IsWord (p : Part) (s : ArgSpec) : Prop :=
  (p.viaItab = false ∧ ∃ name size typ reg, s = Uprobe.scalarRegSpec name size typ reg) ∨
    p.viaItab = true ∧ p.size = 8 ∧ ∃ name reg, s = Uprobe.ifaceTypeSpec true name reg

theorem isWord_scalar {p : Part} (h : p.viaItab = false) (name : String) (size : Int)
    (typ : String) (reg : Option Uprobe.Reg) :
    IsWord p (Uprobe.scalarRegSpec name size typ reg) := .inl ⟨h, name, size, typ, reg, rfl⟩

mutual

theorem wordSpecs_parts (name : String) : ∀ (t : DType) (w base : Nat),
    List.Forall₂ IsWord (t.parts base) (t.wordSpecs name w)
  | .typedef _ t, w, base => wordSpecs_parts name t w base
  | .qual _ t, w, base => wordSpecs_parts name t w base
  | .ptr _ _ _, _, _ => .cons (isWord_scalar rfl ..) .nil
  | .basic k _ _, _, _ => by
    cases k <;> exact .cons (isWord_scalar rfl ..) .nil
  | .struct _ s _ fs, w, base => by
    rw [DType.parts, DType.wordSpecs]
    cases structKind s fs with
    | plain => exact fields_wordSpecs_parts name fs w base
    | string => exact .cons (isWord_scalar rfl ..) (.cons (isWord_scalar rfl ..) .nil)
    | slice =>
      exact .cons (isWord_scalar rfl ..)
        (.cons (isWord_scalar rfl ..) (.cons (isWord_scalar rfl ..) .nil))
    | iface nonEmpty =>
      refine .cons ?_ (.cons (isWord_scalar rfl ..) .nil)
      cases nonEmpty with
      | true => exact .inr ⟨rfl, rfl, _, _, rfl⟩
      | false => exact isWord_scalar rfl ..
  | .func _ _ _, _, _ => .cons (isWord_scalar rfl ..) .nil
  | .other _ _ _, _, _ => .cons (isWord_scalar rfl ..) .nil

theorem fields_wordSpecs_parts (name : String) : ∀ (fs : Fields) (w base : Nat),
    List.Forall₂ IsWord (fs.parts base) (fs.wordSpecs name w)
  | .nil, _, _ => .nil
  | .cons n off t rest, w, base =>
    List.rel_append (wordSpecs_parts (name ++ "." ++ n) t w (base + off.toNat))
      (fields_wordSpecs_parts name rest (w + t.leafWords) base)

end

/-- What `emitABI` emits for a value. -/
def emitted (t : DType) (name : String) (c : FlatCtx) : List ArgSpec :=
  (t.emitABI name c).1.out.drop c.out.length

/-- Each part of the image lies in the low bytes of a register of its own, from the `w`-th on. -/
def Held (regs : Uprobe.Reg → UInt64) (w : Nat) (parts : List Part) (img : List UInt8) : Prop :=
  ∀ (j : Nat) (p : Part), parts[j]? = some p → ∃ r, abiRegs[w + j]? = some r ∧
    (wordBytes (regs r)).take p.size = (img.drop p.offset).take p.size

/-- Registers that hold the parts are there. -/
theorem Held.le {regs : Uprobe.Reg → UInt64} {w : Nat} {parts : List Part} {img : List UInt8}
    (h : Held regs w parts img) (hne : parts ≠ []) : w + parts.length ≤ abiRegs.length := by
  have hpos := List.length_pos_iff.mpr hne
  have hlast : parts[parts.length - 1]? = some parts[parts.length - 1] :=
    List.getElem?_eq_getElem (by omega)
  obtain ⟨r, hr, -⟩ := h _ _ hlast
  have hlt := (List.getElem?_eq_some_iff.mp hr).1
  omega

section
variable {regs : PtRegs} {u : UserMemory}

theorem emitted_eq {t : DType} {c : FlatCtx} (hin : c.wi + t.leafWords ≤ abiRegs.length)
    (name : String) : emitted t name c = t.wordSpecs name c.wi := by
  rw [emitted, DType.emitABI_eq name t c hin]
  exact List.drop_left

/-- The `j`-th word leaf is fetched through the `j`-th register. -/
theorem wordSpecs_register {t : DType} {name : String} {w j : Nat} {s : ArgSpec}
    (h : (t.wordSpecs name w)[j]? = some s) : s.fetchArg.baseReg = abiRegs[w + j]? := by
  have hj := (List.getElem?_eq_some_iff.mp h).1
  rw [DType.wordSpecs_length] at hj
  have hregs := congrArg (fun l : List (Option Uprobe.Reg) => l[j]?) (t.wordSpecs_baseReg name w)
  rw [List.getElem?_map, h, Option.map_some, Uprobe.regsFrom, List.getElem?_map,
    List.getElem?_range' hj, Option.map_some, Nat.one_mul] at hregs
  exact Option.some.inj hregs

theorem concatLeaves_drop {leaves : List LeafData} (hlen : ∀ l ∈ leaves, 8 ≤ l.data.length)
    {j : Nat} {leaf : LeafData} (h : leaves[j]? = some leaf) :
    ((concatLeaves leaves).drop (8 * j)).take 8 = leaf.data.take 8 := by
  induction leaves generalizing j with
  | nil => cases h
  | cons l leaves ih =>
    obtain ⟨hl, hleaves⟩ := List.forall_mem_cons.mp hlen
    have hword : (l.data.take 8).length = 8 := by
      rw [List.length_take]
      omega
    rw [concatLeaves, List.flatMap_cons, ← concatLeaves]
    cases j with
    | zero =>
      obtain rfl := Option.some.inj h
      exact List.take_left' hword
    | succ j =>
      have hj : 8 * (j + 1) = (l.data.take 8).length + 8 * j := by omega
      rw [hj, List.drop_append, List.drop_of_length_le (by omega), List.nil_append,
        Nat.add_sub_cancel_left]
      exact ih hleaves h

theorem fetched_length {specs : List ArgSpec} {leaves : List LeafData}
    (h : List.Forall₂ (Fetched regs u) specs leaves) : ∀ l ∈ leaves, 8 ≤ l.data.length := by
  induction h with
  | nil => exact nofun
  | cons hleaf _ ih =>
    refine List.forall_mem_cons.mpr ⟨?_, ih⟩
    rw [hleaf.length]
    decide

/-! ## What a word leaf holds -/

theorem take_ofBytes {bs : List UInt8} (h : bs.length = 8) :
    (leafOf (ArgData.ofBytes bs)).data.take 8 = bs := by
  change (ArgData.ofBytes bs).data.take 8 = bs
  rw [ArgData.ofBytes_data (by rw [h]; decide), List.take_left' h]

/-- The leaf of a scalar, a pointer or a word of a header is the register. -/
theorem leaf_register {p : Part} {s : ArgSpec} {leaf : LeafData} {r : Uprobe.Reg}
    (hword : IsWord p s) (hitab : p.viaItab = false) (hreg : s.fetchArg.baseReg = some r)
    (h : Fetched regs u s leaf) : leaf.data.take 8 = wordBytes (regs.reg r) := by
  rcases hword with ⟨-, name, size, typ, reg, rfl⟩ | ⟨hyes, -⟩
  · obtain rfl : reg = some r := hreg
    rw [h.register rfl, take_ofBytes (Lib.wordBytes_length _)]
  · rw [hitab] at hyes
    cases hyes

/-- The word that a non-empty interface starts with in a rebuilt image: the type word that its itab
leads to, or zero where that was not read. -/
def fetchedTypeWord (m : Lib.Memory) (leaf : LeafData) (itab : UInt64) : List UInt8 :=
  if leaf.isNil || leaf.unavailable then List.replicate 8 0 else m.slice (itab + 8) 8

theorem leaf_typeWord {p : Part} {s : ArgSpec} {leaf : LeafData} {r : Uprobe.Reg}
    (hword : IsWord p s) (hitab : p.viaItab = true) (hreg : s.fetchArg.baseReg = some r)
    (h : Fetched regs u s leaf) :
    leaf.data.take 8 = fetchedTypeWord u.mem leaf (regs.reg r) := by
  rcases hword with ⟨hno, -⟩ | ⟨-, -, name, reg, rfl⟩
  · rw [hitab] at hno
    cases hno
  · obtain rfl : reg = some r := hreg
    have haddr : Addressed (Uprobe.ifaceTypeSpec true name (some r)) :=
      ⟨r, [(8, false)], rfl, nofun, List.forall_mem_singleton.mpr (by decide)⟩
    have hsize : (Uprobe.ifaceTypeSpec true name (some r)).size = 8 := rfl
    have hpos : 0 ≤ (Uprobe.ifaceTypeSpec true name (some r)).size := by rw [hsize]; decide
    have hle : (Uprobe.ifaceTypeSpec true name (some r)).size ≤ Bpf.maxDataSize := by
      rw [hsize]
      decide
    have hleaf : leafAddr regs.reg u.mem (Uprobe.ifaceTypeSpec true name (some r)) =
        regs.reg r + 8 := rfl
    unfold fetchedTypeWord
    split
    · rename_i hno
      rw [h.zeros haddr hpos hle (by simpa using hno)]
      rfl
    · rename_i hread
      rw [Bool.or_eq_true, not_or, Bool.not_eq_true, Bool.not_eq_true] at hread
      rw [h.bytes haddr hpos hle hread.1 hread.2, hleaf]
      exact List.take_left' (Lib.Memory.slice_length _ _ _)

/-! ## The image -/

/-- The image of a struct, rebuilt from the leaves of its words. -/
structure Rebuilt (u : UserMemory) (t : DType) (leaves : List LeafData)
    (img result : List UInt8) : Prop where
  length : result.length = img.length
  /-- The bytes of fields, the itabs of non-empty interfaces apart. -/
  field : ∀ p ∈ t.parts 0, p.viaItab = false → ∀ i, p.Has i → result[i]? = img[i]?
  /-- The itab is replaced by the type word that it leads to: zero for a nil interface, and where
  the word could not be read. -/
  typeWord : ∀ (j : Nat) (p : Part) (leaf : LeafData), (t.parts 0)[j]? = some p →
    p.viaItab = true → leaves[j]? = some leaf →
      (result.drop p.offset).take 8 = fetchedTypeWord u.mem leaf (word (img.drop p.offset))
  padding : ∀ i < img.length, (∀ p ∈ t.parts 0, ¬ p.Has i) → result[i]? = some 0

/-- The word of a register is that of the bytes of its part. -/
theorem held_word {img : List UInt8} {offset : Nat} {w : UInt64}
    (h : (wordBytes w).take 8 = (img.drop offset).take 8) : word (img.drop offset) = w := by
  rw [← Lib.word_take (Nat.le_refl 8), ← h, Lib.word_take (Nat.le_refl 8), Lib.word_wordBytes]

/-- Each part has its leaf and its register. -/
theorem part_leaf {t : DType} {name : String} {w : Nat} {img : List UInt8}
    {leaves : List LeafData}
    (hfetched : List.Forall₂ (Fetched regs u) (t.wordSpecs name w) leaves)
    (hheld : Held regs.reg w (t.parts 0) img) {j : Nat} {p : Part}
    (hp : (t.parts 0)[j]? = some p) :
    ∃ (s : ArgSpec) (leaf : LeafData) (r : Uprobe.Reg), IsWord p s ∧
      s.fetchArg.baseReg = some r ∧ Fetched regs u s leaf ∧ leaves[j]? = some leaf ∧
      (wordBytes (regs.reg r)).take p.size = (img.drop p.offset).take p.size := by
  have hparts := wordSpecs_parts name t w 0
  obtain ⟨r, hr, hbytes⟩ := hheld j p hp
  have hj := (List.getElem?_eq_some_iff.mp hp).1
  have hj' : j < (t.wordSpecs name w).length := by rwa [← hparts.length_eq]
  have hj'' : j < leaves.length := by rwa [← hfetched.length_eq]
  have hs : (t.wordSpecs name w)[j]? = some (t.wordSpecs name w)[j] :=
    List.getElem?_eq_getElem hj'
  have hisWord := hparts.get hj hj'
  have hleaf := hfetched.get hj' hj''
  rw [List.get_eq_getElem, List.get_eq_getElem] at hisWord hleaf
  rw [List.getElem?_eq_getElem hj, Option.some.injEq] at hp
  subst hp
  exact ⟨_, _, r, hisWord, (wordSpecs_register hs).trans hr, hleaf,
    List.getElem?_eq_getElem hj'', hbytes⟩

/-- The words that `emitABI` fetches of a struct in registers are scattered to the struct, with
zeros between the fields, and all of them are used. -/
theorem scatterWords_rebuilds {t : DType} (hby : t.byValue = true) (name : String)
    (c : FlatCtx) {img : List UInt8} (himg : img.length = t.size.toNat)
    (hheld : Held regs.reg c.wi (t.parts 0) img) {leaves : List LeafData}
    (hfetched : List.Forall₂ (Fetched regs u) (emitted t name c) leaves) :
    Rebuilt u t leaves img (scatterWords t (concatLeaves leaves)) ∧
      (scattered t (concatLeaves leaves)).consume = 8 * t.abiWordCount := by
  have hlen := Uprobe.parts_length t 0
  have hpos := (Uprobe.byValue_abiWordCount t hby).2
  have hin : c.wi + t.leafWords ≤ abiRegs.length := by
    rw [← hlen]
    exact hheld.le (List.length_pos_iff.mp (by omega))
  rw [emitted_eq hin] at hfetched
  have hwords : (concatLeaves leaves).length = 8 * t.leafWords := by
    rw [concatLeaves_length (holdsWords_of_fetched (wordSpecs_isSome hin) hfetched),
      DType.wordSpecs_length]
  have hle := Nat.le_of_eq hwords.symm
  have hleaves := fetched_length hfetched
  refine ⟨⟨?_, ?_, ?_, ?_⟩, Uprobe.scattered_consume hby hle⟩
  · rw [Uprobe.scatterWords_length hby hle, himg]
  · intro p hp hitab i hi
    obtain ⟨j, hj⟩ := List.mem_iff_getElem?.mp hp
    obtain ⟨s, leaf, r, hisWord, hreg, hleaf, hget, hbytes⟩ := part_leaf hfetched hheld hj
    have hsize := Uprobe.parts_size t hby 0 p hp
    have hconcat := concatLeaves_drop hleaves hget
    rw [leaf_register hisWord hitab hreg hleaf] at hconcat
    obtain ⟨hlow, hhigh⟩ := hi
    have hcut := congrArg (List.take p.size) hconcat
    rw [List.take_take, Nat.min_eq_left hsize, hbytes] at hcut
    have hbyte := congrArg (fun l : List UInt8 => l[i - p.offset]?) hcut
    rw [List.getElem?_take_of_lt (by omega), List.getElem?_take_of_lt (by omega),
      List.getElem?_drop, List.getElem?_drop, Nat.add_sub_cancel' hlow] at hbyte
    rw [Uprobe.scatterWords_inside hby hle hj ⟨hlow, hhigh⟩, hbyte]
  · intro j p leaf hj hitab hget
    obtain ⟨s, leaf', r, hisWord, hreg, hleaf, hget', hbytes⟩ := part_leaf hfetched hheld hj
    obtain rfl := Option.some.inj (hget.symm.trans hget')
    have hsize : p.size = 8 := by
      rcases hisWord with ⟨hno, -⟩ | ⟨-, hsize, -⟩
      · rw [hitab] at hno
        cases hno
      · exact hsize
    rw [hsize] at hbytes
    have hconcat := concatLeaves_drop hleaves hget
    rw [leaf_typeWord hisWord hitab hreg hleaf] at hconcat
    rw [held_word hbytes, ← hconcat]
    apply List.ext_getElem?
    intro i
    by_cases hi : i < 8
    · rw [List.getElem?_take_of_lt hi, List.getElem?_take_of_lt hi, List.getElem?_drop,
        List.getElem?_drop,
        Uprobe.scatterWords_inside hby hle hj ⟨Nat.le_add_right _ _, by omega⟩,
        Nat.add_sub_cancel_left]
    · rw [List.getElem?_eq_none (by rw [List.length_take]; omega),
        List.getElem?_eq_none (by rw [List.length_take]; omega)]
  · intro i hi hno
    exact Uprobe.scatterWords_padding hby hle (by rwa [← himg]) hno

end

/-! ## An error in a struct -/

/-- The fetch of one leaf, as the only one. -/
def fetchedLeaf (regs : PtRegs) (u : UserMemory) (s : ArgSpec) : LeafData :=
  match Bpf.encodeArg s.fetchArg with
  | .ok rule => leafOf (Bpf.fetchArg regs u 0 rule)
  | .error _ => { data := [] }

/-- `struct { err error }`. -/
def errorHolder : DType :=
  .struct "main.T" "main.T" 16
    (.cons "err" 0
      (.struct "runtime.iface" "runtime.iface" 16
        (.cons "tab" 0 (.ptr "" 8 (.other "" "itab" 32))
          (.cons "data" 8 (.ptr "" 8 (.other "" "void" 0)) .nil)))
      .nil)

/-- Its itab is at 0x2000 and its data word is 0x3000. -/
def errorRegs : PtRegs where
  ip := 0
  reg
    | .ax => 0x2000
    | .bx => 0x3000
    | _ => 0

/-- Memory that is zero and can be read. -/
def zeroMemory : UserMemory where
  mem _ := 0
  fails _ _ := false

def errorImage : List UInt8 := wordBytes 0x2000 ++ wordBytes 0x3000

def errorLeaves : List LeafData :=
  (emitted errorHolder "x" {}).map (fetchedLeaf errorRegs zeroMemory)

theorem errorHolder_emitted : emitted errorHolder "x" {} =
    [Uprobe.ifaceTypeSpec true "x.err" (some .ax),
      Uprobe.scalarRegSpec "x.err.data" 8 "u64" (some .bx)] := by decide

theorem errorLeaves_fetched :
    List.Forall₂ (Fetched errorRegs zeroMemory) (emitted errorHolder "x" {}) errorLeaves := by
  rw [errorLeaves, errorHolder_emitted]
  exact .cons ⟨0, _, rfl, rfl⟩ (.cons ⟨0, _, rfl, rfl⟩ .nil)

theorem errorHolder_held : Held errorRegs.reg 0 (errorHolder.parts 0) errorImage := by
  intro j p hp
  have hparts : errorHolder.parts 0 =
      [{ offset := 0, size := 8, viaItab := true }, { offset := 8, size := 8 }] := by decide
  rw [hparts] at hp
  match j, hp with
  | 0, hp =>
    obtain rfl := Option.some.inj hp
    exact ⟨.ax, rfl, by decide⟩
  | 1, hp =>
    obtain rfl := Option.some.inj hp
    exact ⟨.bx, rfl, by decide⟩

/-- The struct of a non-nil error is not rebuilt byte for byte: the first word of the image is
the type word (here zero), where the struct has the itab. -/
theorem errorHolder_typeWord :
    List.Forall₂ (Fetched errorRegs zeroMemory) (emitted errorHolder "x" {}) errorLeaves ∧
      Held errorRegs.reg 0 (errorHolder.parts 0) errorImage ∧
      errorHolder.byValue = true ∧ errorImage.length = errorHolder.size.toNat ∧
      ∃ p ∈ errorHolder.parts 0, ∃ i, p.Has i ∧
        (scatterWords errorHolder (concatLeaves errorLeaves))[i]? ≠ errorImage[i]? := by
  refine ⟨errorLeaves_fetched, errorHolder_held, by decide, by decide, ?_⟩
  exact ⟨{ offset := 0, size := 8, viaItab := true }, by decide, 1, ⟨by decide, by decide⟩,
    by decide⟩

theorem errorHolder_rebuilt :
    Rebuilt zeroMemory errorHolder errorLeaves errorImage
        (scatterWords errorHolder (concatLeaves errorLeaves)) ∧
      (scattered errorHolder (concatLeaves errorLeaves)).consume =
        8 * errorHolder.abiWordCount :=
  scatterWords_rebuilds (by decide) "x" {} (by decide) errorHolder_held errorLeaves_fetched

end GoFtrace.Tracing
