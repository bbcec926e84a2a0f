import Mathlib.Data.List.Basic
import Mathlib.Data.UInt

/-!
# RET instructions

`FuncRetOffsets` and `ResolveInstructions` of `elf/asm.go`: a linear sweep over the bytes of
a function, which goes on one byte later where the decoder fails.

* `sweep_inPhase`: instructions that are decoded, or one byte long, keep the sweep in phase.
* `funcRetOffsets_rets`: the functions whose RET instructions are found under every decoder.
* `vaddpd_ret`: a RET inside an AVX instruction.
-/

namespace GoFtrace.Elf

/-! ## The sweep -/

/-- `x86asm.Op`, as far as it is compared. -/
inductive Op where
  | ret | other
  deriving DecidableEq, Repr

/-- `x86asm.Inst`. -/
structure Inst where
  op : Op
  len : Nat
  deriving DecidableEq, Repr

/-- `x86asm.Decode` in 64-bit mode: an instruction is a non-empty part of the bytes, from the
first one on. `none` is an error. -/
structure Decoder where
  decode : List UInt8 → Option Inst
  len_pos : ∀ {bytes inst}, decode bytes = some inst → 0 < inst.len
  len_le : ∀ {bytes inst}, decode bytes = some inst → inst.len ≤ bytes.length

/-- The instruction appended by one turn of the loop. -/
def Decoder.next (d : Decoder) (bytes : List UInt8) : Inst :=
  (d.decode bytes).getD { op := .other, len := 1 }

/-- The loop of `ResolveInstructions`. -/
def resolveLoop (d : Decoder) : Nat → List UInt8 → List Inst
  | 0, _ => []
  | fuel + 1, bytes =>
    let inst := d.next bytes
    let bytes := bytes.drop inst.len
    inst :: if bytes.isEmpty then [] else resolveLoop d fuel bytes

/-- `ResolveInstructions`. Each turn takes a byte at least. -/
def resolveInstructions (d : Decoder) (bytes : List UInt8) : List Inst :=
  if bytes.isEmpty then [] else resolveLoop d bytes.length bytes

/-- The loop of `FuncRetOffsets`. -/
def retOffsets : List Inst → UInt64 → List UInt64
  | [], _ => []
  | inst :: insts, offset =>
    let rest := retOffsets insts (offset + UInt64.ofNat inst.len)
    if inst.op = .ret then offset :: rest else rest

/-- `FuncRetOffsets` of a function whose bytes start at an offset of the file. -/
def funcRetOffsets (d : Decoder) (bytes : List UInt8) (offset : UInt64) : List UInt64 :=
  retOffsets (resolveInstructions d bytes) offset

namespace Decoder

theorem next_pos (d : Decoder) (bytes : List UInt8) : 0 < (d.next bytes).len := by
  unfold next
  cases h : d.decode bytes with
  | none => exact Nat.one_pos
  | some inst => exact d.len_pos h

theorem next_le (d : Decoder) {bytes : List UInt8} (hne : bytes ≠ []) :
    (d.next bytes).len ≤ bytes.length := by
  unfold next
  cases h : d.decode bytes with
  | none => exact List.length_pos_of_ne_nil hne
  | some inst => exact d.len_le h

end Decoder

section
variable (d : Decoder)

theorem resolveLoop_eq (fuel : Nat) : ∀ bytes : List UInt8, bytes ≠ [] → bytes.length ≤ fuel →
    resolveLoop d fuel bytes =
      d.next bytes :: resolveInstructions d (bytes.drop (d.next bytes).len) := by
  induction fuel using Nat.strongRecOn with
  | ind fuel ih =>
    intro bytes hne hfuel
    have hpos := List.length_pos_of_ne_nil hne
    have hlen := d.next_pos bytes
    obtain ⟨n, rfl⟩ : ∃ n, fuel = n + 1 := ⟨fuel - 1, by omega⟩
    rw [resolveLoop, resolveInstructions]
    congr 1
    split
    · rfl
    · rename_i hrest
      have hrest' : bytes.drop (d.next bytes).len ≠ [] := by simpa using hrest
      have hshort : (bytes.drop (d.next bytes).len).length ≤ n := by
        rw [List.length_drop]
        omega
      rw [ih n (Nat.lt_succ_self n) _ hrest' hshort]
      rw [ih _ (Nat.lt_succ_of_le hshort) _ hrest' (Nat.le_refl _)]

@[simp] theorem resolveInstructions_nil : resolveInstructions d [] = [] := rfl

/-- One turn of the loop. -/
theorem resolveInstructions_of_ne_nil {bytes : List UInt8} (hne : bytes ≠ []) :
    resolveInstructions d bytes =
      d.next bytes :: resolveInstructions d (bytes.drop (d.next bytes).len) := by
  conv_lhs => rw [resolveInstructions, if_neg (by simpa using hne)]
  exact resolveLoop_eq d _ bytes hne (Nat.le_refl _)

end

/-! ## Positions -/

/-- Where the RET instructions of a list start. -/
def retPositions : List Inst → Nat → List Nat
  | [], _ => []
  | inst :: insts, pos =>
    if inst.op = .ret then pos :: retPositions insts (pos + inst.len)
    else retPositions insts (pos + inst.len)

theorem retOffsets_eq (offset : UInt64) : ∀ (insts : List Inst) (pos : Nat),
    retOffsets insts (offset + UInt64.ofNat pos) =
      (retPositions insts pos).map fun p => offset + UInt64.ofNat p
  | [], _ => rfl
  | inst :: insts, pos => by
    have hnext : offset + UInt64.ofNat pos + UInt64.ofNat inst.len =
        offset + UInt64.ofNat (pos + inst.len) := by
      rw [UInt64.add_assoc, UInt64.ofNat_add]
    rw [retOffsets, retPositions, hnext, retOffsets_eq offset insts]
    split
    · rfl
    · rfl

theorem retPositions_append (xs ys : List Inst) (pos : Nat) :
    retPositions (xs ++ ys) pos =
      retPositions xs pos ++ retPositions ys (pos + (xs.map Inst.len).sum) := by
  induction xs generalizing pos with
  | nil => rfl
  | cons x xs ih =>
    rw [List.cons_append, retPositions, retPositions, ih, List.map_cons, List.sum_cons,
      Nat.add_assoc]
    split
    · rfl
    · rfl

theorem mem_retPositions_cons {inst : Inst} {insts : List Inst} {pos p : Nat} :
    p ∈ retPositions (inst :: insts) pos ↔
      (p = pos ∧ inst.op = .ret) ∨ p ∈ retPositions insts (pos + inst.len) := by
  rw [retPositions]
  split
  · rename_i h
    simp [h]
  · rename_i h
    simp [h]

/-- The positions lie between the first and the last instruction. -/
theorem retPositions_bounds {insts : List Inst} (hpos : ∀ inst ∈ insts, 0 < inst.len)
    {pos p : Nat} (hp : p ∈ retPositions insts pos) :
    pos ≤ p ∧ p < pos + (insts.map Inst.len).sum := by
  induction insts generalizing pos with
  | nil => cases hp
  | cons inst insts ih =>
    have hlen := hpos inst List.mem_cons_self
    rw [List.map_cons, List.sum_cons]
    rcases mem_retPositions_cons.mp hp with ⟨rfl, -⟩ | hp
    · omega
    · have hrest := ih (fun i hi => hpos i (List.mem_cons_of_mem _ hi)) hp
      omega

/-- The instructions of the sweep cover the bytes. -/
theorem resolveInstructions_cover (d : Decoder) (n : Nat) : ∀ bytes : List UInt8,
    bytes.length ≤ n → (∀ inst ∈ resolveInstructions d bytes, 0 < inst.len) ∧
      ((resolveInstructions d bytes).map Inst.len).sum = bytes.length := by
  induction n with
  | zero =>
    intro bytes hn
    have hnil : bytes = [] := List.eq_nil_of_length_eq_zero (Nat.le_zero.mp hn)
    subst hnil
    exact ⟨fun _ h => absurd h List.not_mem_nil, rfl⟩
  | succ n ih =>
    intro bytes hn
    by_cases hne : bytes = []
    · subst hne
      exact ⟨fun _ h => absurd h List.not_mem_nil, rfl⟩
    · have hlen := d.next_pos bytes
      have hle := d.next_le hne
      have hdrop : (bytes.drop (d.next bytes).len).length ≤ n := by
        rw [List.length_drop]
        omega
      obtain ⟨hpos, hsum⟩ := ih _ hdrop
      rw [resolveInstructions_of_ne_nil d hne]
      refine ⟨List.forall_mem_cons.mpr ⟨hlen, hpos⟩, ?_⟩
      rw [List.map_cons, List.sum_cons, hsum, List.length_drop]
      omega

/-! ## True instructions -/

/-- An instruction of the function. -/
structure TrueInst where
  op : Op
  bytes : List UInt8
  nonempty : bytes ≠ []
  /-- Whether the decoder knows it. -/
  supported : Bool

namespace TrueInst

theorem length_pos (i : TrueInst) : 0 < i.bytes.length := List.length_pos_of_ne_nil i.nonempty

/-- What the decoder returns at the start of the instruction. -/
def decoded (i : TrueInst) : Option Inst :=
  if i.supported then some { op := i.op, len := i.bytes.length } else none

/-- The instruction itself. -/
def inst (i : TrueInst) : Inst := { op := i.op, len := i.bytes.length }

/-- The sweep goes over the instruction in one turn and sees whether it is a RET. -/
def KeepsPhase (i : TrueInst) : Prop :=
  i.supported = false → i.bytes.length = 1 ∧ i.op ≠ .ret

instance (i : TrueInst) : Decidable i.KeepsPhase := inferInstanceAs (Decidable (_ → _))

end TrueInst

/-- The bytes of a list of instructions. -/
def codeBytes (code : List TrueInst) : List UInt8 := code.flatMap TrueInst.bytes

theorem codeBytes_cons (i : TrueInst) (code : List TrueInst) :
    codeBytes (i :: code) = i.bytes ++ codeBytes code := rfl

theorem codeBytes_append (xs ys : List TrueInst) :
    codeBytes (xs ++ ys) = codeBytes xs ++ codeBytes ys := List.flatMap_append

/-- A function body. The length of a slice fits 63 bits. -/
structure Body where
  code : List TrueInst
  short : (codeBytes code).length < 2 ^ 63

/-- Where the RET instructions of a function are in the file. -/
def Body.rets (b : Body) (offset : UInt64) : List UInt64 :=
  retOffsets (b.code.map TrueInst.inst) offset

/-- The decoder at the start of each instruction. Elsewhere it may return anything. -/
def Decoder.Knows (d : Decoder) : List TrueInst → Prop
  | [] => True
  | i :: code => d.decode (codeBytes (i :: code)) = i.decoded ∧ Decoder.Knows d code

theorem codeBytes_ne_nil (i : TrueInst) (code : List TrueInst) : codeBytes (i :: code) ≠ [] := by
  rw [codeBytes_cons]
  exact List.append_ne_nil_of_left_ne_nil i.nonempty _

theorem length_inst (code : List TrueInst) :
    ((code.map TrueInst.inst).map Inst.len).sum = (codeBytes code).length := by
  induction code with
  | nil => rfl
  | cons i code ih =>
    rw [List.map_cons, List.map_cons, List.sum_cons, ih, codeBytes_cons, List.length_append]
    rfl

section
variable {d : Decoder}

theorem Decoder.Knows.tail {xs ys : List TrueInst} (h : d.Knows (xs ++ ys)) : d.Knows ys := by
  induction xs with
  | nil => exact h
  | cons x xs ih => exact ih h.2

/-- At the start of an instruction that keeps the phase, the sweep takes it as it is. -/
theorem retPositions_keepsPhase {i : TrueInst} {code : List TrueInst} (hd : d.Knows (i :: code))
    (hi : i.KeepsPhase) (pos : Nat) :
    retPositions (resolveInstructions d (codeBytes (i :: code))) pos =
      retPositions [i.inst] pos ++
        retPositions (resolveInstructions d (codeBytes code)) (pos + i.bytes.length) := by
  have hnext : (d.next (codeBytes (i :: code))).len = i.bytes.length ∧
      ((d.next (codeBytes (i :: code))).op = .ret ↔ i.op = .ret) := by
    rw [Decoder.next, hd.1, TrueInst.decoded]
    cases hs : i.supported with
    | true => exact ⟨rfl, Iff.rfl⟩
    | false =>
      obtain ⟨hlen, hop⟩ := hi hs
      exact ⟨hlen.symm, ⟨fun h => (by cases h), fun h => absurd h hop⟩⟩
  have hdrop : (codeBytes (i :: code)).drop i.bytes.length = codeBytes code := List.drop_left
  rw [resolveInstructions_of_ne_nil d (codeBytes_ne_nil i code), retPositions, retPositions,
    retPositions, hnext.1, hdrop]
  by_cases hop : i.op = .ret
  · rw [if_pos (hnext.2.mpr hop), if_pos (show i.inst.op = .ret from hop)]
    rfl
  · rw [if_neg (mt hnext.2.mp hop), if_neg (show ¬ i.inst.op = .ret from hop)]
    rfl

/-- As long as every instruction keeps the phase, the RET instructions found are the true
ones. -/
theorem sweep_inPhase {xs ys : List TrueInst} (hd : d.Knows (xs ++ ys))
    (hxs : ∀ i ∈ xs, i.KeepsPhase) (pos : Nat) :
    retPositions (resolveInstructions d (codeBytes (xs ++ ys))) pos =
      retPositions (xs.map TrueInst.inst) pos ++
        retPositions (resolveInstructions d (codeBytes ys)) (pos + (codeBytes xs).length) := by
  induction xs generalizing pos with
  | nil => rfl
  | cons x xs ih =>
    have hx := hxs x List.mem_cons_self
    have hrest := ih hd.2 (fun i hi => hxs i (List.mem_cons_of_mem _ hi)) (pos + x.bytes.length)
    rw [List.cons_append] at hd ⊢
    rw [retPositions_keepsPhase hd hx, hrest, List.map_cons, codeBytes_cons x xs,
      List.length_append, ← Nat.add_assoc, ← List.append_assoc]
    congr 1
    exact (retPositions_append [x.inst] _ pos).symm

end

/-! ## A decoder that sees a RET everywhere else -/

/-- What the decoder returns, by the number of bytes that are left of the code. -/
def decoyDecode : List TrueInst → List UInt8 → Option Inst
  | [], _ => none
  | i :: code, bytes =>
    if bytes = codeBytes (i :: code) then i.decoded
    else if bytes.length ≤ (codeBytes code).length then decoyDecode code bytes
    else some { op := .ret, len := 1 }

theorem decoded_bounds {i : TrueInst} {code : List TrueInst} {inst : Inst}
    (h : i.decoded = some inst) :
    0 < inst.len ∧ inst.len ≤ (codeBytes (i :: code)).length := by
  unfold TrueInst.decoded at h
  split at h
  · cases h
    rw [codeBytes_cons, List.length_append]
    exact ⟨i.length_pos, Nat.le_add_right _ _⟩
  · cases h

theorem decoyDecode_bounds {code : List TrueInst} {bytes : List UInt8} {inst : Inst}
    (h : decoyDecode code bytes = some inst) : 0 < inst.len ∧ inst.len ≤ bytes.length := by
  induction code with
  | nil => cases h
  | cons i code ih =>
    rw [decoyDecode] at h
    split at h
    · rename_i heq
      rw [heq]
      exact decoded_bounds h
    · split at h
      · exact ih h
      · cases h
        dsimp only
        omega

def decoy (code : List TrueInst) : Decoder where
  decode := decoyDecode code
  len_pos h := (decoyDecode_bounds h).1
  len_le h := (decoyDecode_bounds h).2

/-- Bytes that are no longer than the rest of the code are decoded by the rest. -/
theorem decoyDecode_append (xs : List TrueInst) {ys : List TrueInst} {bytes : List UInt8}
    (hlen : bytes.length ≤ (codeBytes ys).length) :
    decoyDecode (xs ++ ys) bytes = decoyDecode ys bytes := by
  induction xs with
  | nil => rfl
  | cons x xs ih =>
    have hrest : (codeBytes ys).length ≤ (codeBytes (xs ++ ys)).length := by
      rw [codeBytes_append, List.length_append]
      exact Nat.le_add_left _ _
    have hne : bytes ≠ codeBytes (x :: (xs ++ ys)) := by
      intro heq
      have hpos := x.length_pos
      rw [heq, codeBytes_cons, List.length_append] at hlen
      omega
    rw [List.cons_append, decoyDecode, if_neg hne, if_pos (by omega), ih]

theorem knows_append (xs ys : List TrueInst) : (decoy (xs ++ ys)).Knows ys := by
  induction ys generalizing xs with
  | nil => trivial
  | cons y ys ih =>
    refine ⟨?_, ?_⟩
    · change decoyDecode (xs ++ y :: ys) _ = _
      rw [decoyDecode_append xs (Nat.le_refl _), decoyDecode, if_pos rfl]
    · have h := ih (xs ++ [y])
      rw [List.append_assoc, List.singleton_append] at h
      exact h

theorem decoy_knows (code : List TrueInst) : (decoy code).Knows code := knows_append [] code

/-- Inside an instruction the decoder sees a RET. -/
theorem decoy_inside (xs : List TrueInst) {i : TrueInst} {ys : List TrueInst}
    (hlen : 1 < i.bytes.length) :
    (decoy (xs ++ i :: ys)).next ((codeBytes (i :: ys)).drop 1) = { op := .ret, len := 1 } := by
  have hbytes : ((codeBytes (i :: ys)).drop 1).length + 1 =
      i.bytes.length + (codeBytes ys).length := by
    rw [List.length_drop, codeBytes_cons, List.length_append]
    omega
  have hne : (codeBytes (i :: ys)).drop 1 ≠ codeBytes (i :: ys) := by
    intro heq
    have hsame := congrArg List.length heq
    rw [codeBytes_cons i ys, List.length_append] at hsame
    rw [codeBytes_cons i ys] at hbytes
    omega
  have hdecode : (decoy (xs ++ i :: ys)).decode ((codeBytes (i :: ys)).drop 1) =
      some { op := .ret, len := 1 } := by
    change decoyDecode _ _ = _
    rw [decoyDecode_append xs (by rw [List.length_drop]; omega), decoyDecode, if_neg hne,
      if_neg (by omega)]
  rw [Decoder.next, hdecode]
  rfl

/-! ## When the RET instructions are found -/

/-- The first element of a list without a property. -/
theorem exists_first {α : Type} {P : α → Prop} [DecidablePred P] {l : List α}
    (h : ¬ ∀ a ∈ l, P a) : ∃ xs a ys, l = xs ++ a :: ys ∧ (∀ b ∈ xs, P b) ∧ ¬ P a := by
  induction l with
  | nil => exact absurd (fun _ ha => absurd ha List.not_mem_nil) h
  | cons c l ih =>
    by_cases hc : P c
    · obtain ⟨xs, a, ys, rfl, hxs, ha⟩ := ih fun hall => h (List.forall_mem_cons.mpr ⟨hc, hall⟩)
      exact ⟨c :: xs, a, ys, rfl, List.forall_mem_cons.mpr ⟨hc, hxs⟩, ha⟩
    · exact ⟨[], c, l, rfl, fun _ hb => absurd hb List.not_mem_nil, hc⟩

/-- The offsets returned are those of the true RET instructions. -/
def FindsRets (d : Decoder) (b : Body) (offset : UInt64) : Prop :=
  ∀ x, x ∈ funcRetOffsets d (codeBytes b.code) offset ↔ x ∈ b.rets offset

theorem ofNat_add_inj {offset : UInt64} {p q : Nat} (hp : p < 2 ^ 63) (hq : q < 2 ^ 63)
    (h : offset + UInt64.ofNat p = offset + UInt64.ofNat q) : p = q := by
  have heq := congrArg UInt64.toNat ((UInt64.add_right_inj offset).mp h)
  rw [UInt64.toNat_ofNat', UInt64.toNat_ofNat', Nat.mod_eq_of_lt (by omega),
    Nat.mod_eq_of_lt (by omega)] at heq
  exact heq

theorem retPositions_lt (d : Decoder) (bytes : List UInt8) {p : Nat}
    (hp : p ∈ retPositions (resolveInstructions d bytes) 0) : p < bytes.length := by
  obtain ⟨hpos, hsum⟩ := resolveInstructions_cover d _ bytes (Nat.le_refl _)
  have h := (retPositions_bounds hpos hp).2
  rwa [hsum, Nat.zero_add] at h

theorem truePositions_bounds {code : List TrueInst} {pos p : Nat}
    (hp : p ∈ retPositions (code.map TrueInst.inst) pos) :
    pos ≤ p ∧ p < pos + (codeBytes code).length := by
  rw [← length_inst]
  refine retPositions_bounds (fun inst hinst => ?_) hp
  obtain ⟨i, -, rfl⟩ := List.mem_map.mp hinst
  exact i.length_pos

/-- The offsets agree when the positions do. -/
theorem findsRets_iff (d : Decoder) (b : Body) (offset : UInt64) :
    FindsRets d b offset ↔ ∀ p, p ∈ retPositions (resolveInstructions d (codeBytes b.code)) 0 ↔
      p ∈ retPositions (b.code.map TrueInst.inst) 0 := by
  have hzero : offset + UInt64.ofNat 0 = offset := UInt64.add_zero offset
  have hfound : funcRetOffsets d (codeBytes b.code) offset =
      (retPositions (resolveInstructions d (codeBytes b.code)) 0).map
        fun p => offset + UInt64.ofNat p := by
    rw [← retOffsets_eq, hzero]
    rfl
  have htrue : b.rets offset = (retPositions (b.code.map TrueInst.inst) 0).map
      fun p => offset + UInt64.ofNat p := by
    rw [← retOffsets_eq, hzero]
    rfl
  have hshort := b.short
  have hlt₁ := fun p => retPositions_lt d (codeBytes b.code) (p := p)
  have hlt₂ : ∀ p ∈ retPositions (b.code.map TrueInst.inst) 0, p < (codeBytes b.code).length := by
    intro p hp
    have h := (truePositions_bounds hp).2
    omega
  rw [FindsRets, hfound, htrue]
  constructor
  · intro h p
    constructor
    · intro hp
      obtain ⟨q, hq, heq⟩ := List.mem_map.mp ((h _).mp (List.mem_map_of_mem hp))
      have hpq := ofNat_add_inj (by have := hlt₂ q hq; omega) (by have := hlt₁ p hp; omega) heq
      exact hpq ▸ hq
    · intro hp
      obtain ⟨q, hq, heq⟩ := List.mem_map.mp ((h _).mpr (List.mem_map_of_mem hp))
      have hpq := ofNat_add_inj (by have := hlt₁ q hq; omega) (by have := hlt₂ p hp; omega) heq
      exact hpq ▸ hq
  · intro h x
    simp only [List.mem_map, h]

/-- An instruction that does not keep the phase spoils the result under some decoder. -/
theorem not_findsRets {b : Body} {xs ys : List TrueInst} {i : TrueInst}
    (hcode : b.code = xs ++ i :: ys) (hxs : ∀ j ∈ xs, j.KeepsPhase) (hi : ¬ i.KeepsPhase)
    (offset : UInt64) : ¬ FindsRets (decoy b.code) b offset := by
  rw [findsRets_iff, hcode]
  intro h
  obtain ⟨hs, hbad⟩ : i.supported = false ∧ ¬ (i.bytes.length = 1 ∧ i.op ≠ .ret) := by
    simpa [TrueInst.KeepsPhase] using hi
  have hknows := decoy_knows (xs ++ i :: ys)
  have hne := codeBytes_ne_nil i ys
  -- the sweep reaches the instruction and goes on one byte behind its start
  have hnext : (decoy (xs ++ i :: ys)).next (codeBytes (i :: ys)) = { op := .other, len := 1 } := by
    rw [Decoder.next, hknows.tail.1, TrueInst.decoded, hs]
    rfl
  rw [sweep_inPhase hknows hxs, resolveInstructions_of_ne_nil _ hne, hnext, List.map_append,
    retPositions_append, length_inst, Nat.zero_add, retPositions,
    if_neg (show ¬ Op.other = .ret by decide)] at h
  dsimp only at h
  by_cases hop : i.op = .ret
  · -- a RET that is not decoded is not found
    have htrue := (h (codeBytes xs).length).mpr (List.mem_append_right _ (by
      rw [List.map_cons, mem_retPositions_cons]
      exact .inl ⟨rfl, hop⟩))
    rcases List.mem_append.mp htrue with hp | hp
    · have := (truePositions_bounds hp).2
      omega
    · have := (retPositions_bounds (resolveInstructions_cover _ _ _ (Nat.le_refl _)).1 hp).1
      omega
  · -- the RET seen behind the first byte is not there
    have hlen : 1 < i.bytes.length := by
      have hpos := i.length_pos
      have hone : i.bytes.length ≠ 1 := fun hone => hbad ⟨hone, hop⟩
      omega
    have hrest : (codeBytes (i :: ys)).drop 1 ≠ [] := by
      intro hnil
      have := congrArg List.length hnil
      rw [List.length_drop, codeBytes_cons, List.length_append, List.length_nil] at this
      omega
    have hfound := (h ((codeBytes xs).length + 1)).mp (List.mem_append_right _ (by
      rw [resolveInstructions_of_ne_nil _ hrest, decoy_inside xs hlen, mem_retPositions_cons]
      exact .inl ⟨rfl, rfl⟩))
    rcases List.mem_append.mp hfound with hp | hp
    · have := (truePositions_bounds hp).2
      omega
    · rw [List.map_cons, mem_retPositions_cons] at hp
      rcases hp with ⟨-, hret⟩ | hp
      · exact hop hret
      · have hge := (truePositions_bounds hp).1
        have hinst : i.inst.len = i.bytes.length := rfl
        omega

/-- The RET instructions are found under every decoder exactly when the instructions that the
decoder does not know have one byte, and none of them is a RET. -/
theorem funcRetOffsets_rets (b : Body) (offset : UInt64) :
    (∀ d : Decoder, d.Knows b.code → FindsRets d b offset) ↔ ∀ i ∈ b.code, i.KeepsPhase := by
  constructor
  · intro h
    by_contra hno
    obtain ⟨xs, i, ys, hcode, hxs, hi⟩ := exists_first hno
    exact not_findsRets hcode hxs hi offset (h _ (decoy_knows b.code))
  · intro h d hd
    rw [findsRets_iff]
    intro p
    have hknows : d.Knows (b.code ++ []) := by rwa [List.append_nil]
    have hsweep := sweep_inPhase hknows h 0
    rw [List.append_nil] at hsweep
    rw [hsweep]
    simp [codeBytes, retPositions]

/-! ## An AVX instruction -/

/-- `VADDPD Y3, Y0, Y0`, then `RET`. -/
def sampleBody : Body where
  code :=
    [{ op := .other, bytes := [0xC5, 0xFD, 0x58, 0xC3], nonempty := by simp, supported := false },
      { op := .ret, bytes := [0xC3], nonempty := by simp, supported := true }]
  short := by decide

/-- The instructions `STD`, `POP` and `RET` of one byte. -/
def sampleDecode : List UInt8 → Option Inst
  | 0xFD :: _ => some { op := .other, len := 1 }
  | 0x58 :: _ => some { op := .other, len := 1 }
  | 0xC3 :: _ => some { op := .ret, len := 1 }
  | _ => none

theorem sampleDecode_len {bytes : List UInt8} {inst : Inst} (h : sampleDecode bytes = some inst) :
    inst.len = 1 ∧ bytes ≠ [] := by
  unfold sampleDecode at h
  split at h
  · cases h; exact ⟨rfl, by simp⟩
  · cases h; exact ⟨rfl, by simp⟩
  · cases h; exact ⟨rfl, by simp⟩
  · cases h

def sampleDecoder : Decoder where
  decode := sampleDecode
  len_pos h := by rw [(sampleDecode_len h).1]; exact Nat.one_pos
  len_le h := by
    rw [(sampleDecode_len h).1]
    exact List.length_pos_of_ne_nil (sampleDecode_len h).2

/-- A RET is seen at the last byte of the addition. -/
theorem vaddpd_ret :
    sampleDecoder.Knows sampleBody.code ∧
      funcRetOffsets sampleDecoder (codeBytes sampleBody.code) 0 = [3, 4] ∧
      sampleBody.rets 0 = [4] ∧
      ¬ ∀ (b : Body) (offset : UInt64) (d : Decoder), d.Knows b.code → FindsRets d b offset := by
  have hknows : sampleDecoder.Knows sampleBody.code := ⟨rfl, rfl, trivial⟩
  have hfound : funcRetOffsets sampleDecoder (codeBytes sampleBody.code) 0 = [3, 4] := by decide
  have htrue : sampleBody.rets 0 = [4] := by decide
  refine ⟨hknows, hfound, htrue, fun h => ?_⟩
  have hthree := h sampleBody 0 sampleDecoder hknows 3
  rw [hfound, htrue] at hthree
  exact absurd (hthree.mp List.mem_cons_self) (by decide)

end GoFtrace.Elf
