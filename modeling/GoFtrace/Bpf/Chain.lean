import GoFtrace.Bpf.Fetch

/-!
# Rule chains

A fetch rule starts from a register and takes memory steps: `+off` adds, `*off` adds and
loads the word found there. A chain is a rule that `struct arg_rule` holds without loss.

* `encodeArg_chain`: `setArgRules` stores a chain as it is.
* `fetchArg_chain`: the programs fetch what the chain denotes.
-/

namespace GoFtrace.Bpf

open Lib (Memory word wordBytes)
open Uprobe (Reg FetchArg)

/-! ## Meaning -/

/-- A memory step: its offset and whether it loads. -/
abbrev Step := Int × Bool

/-- The address that memory steps lead to. -/
def evalSteps (m : Memory) : List Step → UInt64 → UInt64
  | [], addr => addr
  | (off, deref) :: steps, addr =>
    let addr := addr + UInt64.ofInt off
    evalSteps m steps (if deref then m.wordAt addr else addr)

theorem evalSteps_append (m : Memory) (xs ys : List Step) (addr : UInt64) :
    evalSteps m (xs ++ ys) addr = evalSteps m ys (evalSteps m xs addr) := by
  induction xs generalizing addr with
  | nil => rfl
  | cons x xs ih => exact ih _

def FitsInt16 (n : Int) : Prop := -2 ^ 15 ≤ n ∧ n < 2 ^ 15

instance (n : Int) : Decidable (FitsInt16 n) := inferInstanceAs (Decidable (_ ∧ _))

theorem FitsInt16.toInt_ofInt {n : Int} (h : FitsInt16 n) : (Int16.ofInt n).toInt = n :=
  Int16.toInt_ofInt_of_le h.1 h.2

/-- The rules of memory steps. -/
def stepRules (steps : List Step) : List Uprobe.ArgRule :=
  steps.map fun s => .stack s.1 s.2

/-- A rule that `struct arg_rule` holds without loss. -/
structure Chain where
  reg : Reg
  steps : List Step
  length_lt : steps.length < Uprobe.maxFetchArgRules
  fits : ∀ s ∈ steps, FitsInt16 s.1

namespace Chain

/-- The rules of a chain, the register first. -/
def rules (c : Chain) : List Uprobe.ArgRule := .register (some c.reg) :: stepRules c.steps

/-- The address that a chain denotes. -/
def addr (c : Chain) (regs : PtRegs) (m : Memory) : UInt64 :=
  evalSteps m c.steps (regs.reg c.reg)

end Chain

/-! ## Encoding -/

/-- The steps as the kernel stores them. -/
def encodedSteps (steps : List Step) : List (Int16 × Bool) :=
  steps.map fun s => (Int16.ofInt s.1, s.2)

theorem take_ofFn_getD {α : Type} {n : Nat} (l : List α) (d : α) (h : l.length ≤ n) :
    (Vector.ofFn fun i : Fin n => l.getD i d).toList.take l.length = l := by
  rw [Vector.toList_ofFn]
  refine List.ext_getElem (by simp [h]) fun i h₁ h₂ => ?_
  rw [List.getElem_take, List.getElem_ofFn]
  simp [h₂]

theorem encodeSteps_stepRules (r : Option Reg) (steps : List Step) :
    encodeSteps (.register r :: stepRules steps) =
      Vector.ofFn fun i => (encodedSteps steps).getD i (0, false) := by
  have hsteps : ∀ f : Uprobe.ArgRule → Option (Int16 × Bool),
      (∀ off deref, f (.stack off deref) = some (Int16.ofInt off, deref)) →
      (stepRules steps).filterMap f = encodedSteps steps := by
    intro f hf
    induction steps with
    | nil => rfl
    | cons s steps ih =>
      have hhead : f (.stack s.1 s.2) = some (Int16.ofInt s.1, s.2) := hf s.1 s.2
      exact (List.filterMap_cons_some hhead).trans (congrArg _ ih)
  unfold encodeSteps
  rw [List.filterMap_cons_none rfl, hsteps _ fun _ _ => rfl]

theorem takenSteps_encodeSteps {r : Option Reg} {steps : List Step}
    (h : steps.length < Uprobe.maxFetchArgRules) :
    takenSteps (UInt8.ofNat steps.length) (encodeSteps (.register r :: stepRules steps)) =
      encodedSteps steps := by
  have hlen : (encodedSteps steps).length = steps.length := by simp [encodedSteps]
  have hnat : (UInt8.ofNat steps.length).toNat = (encodedSteps steps).length := by
    rw [hlen, UInt8.toNat_ofNat']
    have hmax : Uprobe.maxFetchArgRules = 8 := rfl
    omega
  rw [takenSteps, encodeSteps_stepRules, hnat]
  exact take_ofFn_getD _ _ (by rw [hlen]; exact Nat.le_of_lt h)

/-- The encoded form of a leaf with a chain. -/
def Chain.encoded (c : Chain) (a : FetchArg) : ArgRule :=
  { type := if c.steps.isEmpty then .reg else .memory
    reg := registerConstants (some c.reg)
    size := UInt8.ofInt a.size
    length := UInt8.ofNat c.steps.length
    steps := encodeSteps c.rules
    nilCheck := a.nilCheck
    ifaceData := a.ifaceData
    typeIdx := if a.ifaceData then UInt8.ofNat a.typeIndex else 0 }

theorem getLast_rules (c : Chain) :
    ∃ last, c.rules.getLast? = some last ∧
      ruleType last = if c.steps.isEmpty then .reg else .memory := by
  rw [Chain.rules, stepRules]
  cases c.steps using List.reverseRecOn with
  | nil => exact ⟨_, rfl, rfl⟩
  | append_singleton steps s =>
    refine ⟨.stack s.1 s.2, ?_, ?_⟩
    · rw [List.map_append, ← List.cons_append]
      exact List.getLast?_concat ..
    · simp [ruleType]

/-- A leaf whose rules form a chain is stored without loss. -/
theorem encodeArg_chain {a : FetchArg} {c : Chain} (h : a.rules = c.rules) :
    encodeArg a = .ok (c.encoded a) := by
  have hlen : a.rules.length = c.steps.length + 1 := by
    rw [h, Chain.rules, List.length_cons, stepRules, List.length_map]
  have hlt := c.length_lt
  obtain ⟨last, hlast, htype⟩ := getLast_rules c
  rw [encodeArg, if_neg (by omega)]
  rw [h, hlast]
  have hhead : c.rules.head? = some (.register (some c.reg)) := rfl
  rw [hhead]
  dsimp only
  rw [htype, ← h, hlen, Nat.add_sub_cancel, h]
  rfl

/-! ## Fetching -/

/-- The addressing loop computes the address that the steps denote, unless a read fails. -/
theorem effectiveAddr_encoded {u : UserMemory} {leaf : Nat} {steps : List Step}
    (hfits : ∀ s ∈ steps, FitsInt16 s.1) (i : Nat) (addr : UInt64) :
    effectiveAddr u leaf i (encodedSteps steps) addr = none ∨
      effectiveAddr u leaf i (encodedSteps steps) addr = some (evalSteps u.mem steps addr) := by
  induction steps generalizing i addr with
  | nil => exact .inr rfl
  | cons s steps ih =>
    obtain ⟨off, deref⟩ := s
    have hoff : (Int16.ofInt off).toInt = off :=
      FitsInt16.toInt_ofInt (hfits _ List.mem_cons_self)
    have hsteps : ∀ s ∈ steps, FitsInt16 s.1 := fun s hs =>
      hfits s (List.mem_cons_of_mem _ hs)
    rw [encodedSteps, List.map_cons, ← encodedSteps, effectiveAddr, evalSteps]
    dsimp only
    rw [hoff]
    cases deref with
    | false => exact ih hsteps _ _
    | true =>
      rw [if_pos rfl, if_pos rfl]
      split
      · exact .inl rfl
      · exact ih hsteps _ _

/-- What a leaf holds when `n` bytes at an address were wanted. -/
inductive Copied (m : Memory) (addr : UInt64) (n : Nat) : ArgData → Prop
  | nil : Copied m addr n ArgData.ofNil
  | error : Copied m addr n ArgData.ofError
  | bytes : Copied m addr n (ArgData.ofBytes (m.slice addr n))

/-- A size that fits the slot is stored without loss. -/
theorem size_stored {size : Int} (hpos : 0 ≤ size) (hle : size ≤ maxDataSize) :
    min (UInt8.ofInt size).toNat maxDataSize = size.toNat := by
  have hmax : maxDataSize = 64 := rfl
  obtain ⟨n, rfl⟩ := Int.eq_ofNat_of_zero_le hpos
  have hlt : n ≤ 64 := by exact_mod_cast hle
  have hmod : ((n : Int) % 2 ^ 8).toNat = n := by omega
  rw [UInt8.ofInt, hmod, UInt8.toNat_ofNat', Int.toNat_natCast]
  omega

theorem copyLeaf_copied (u : UserMemory) (leaf : Nat) {size : Int} (hpos : 0 ≤ size)
    (hle : size ≤ maxDataSize) (addr : UInt64) :
    Copied u.mem addr size.toNat (copyLeaf u leaf (UInt8.ofInt size) addr) := by
  unfold copyLeaf
  rw [size_stored hpos hle]
  dsimp only
  split
  · rename_i hzero
    rw [hzero]
    exact .bytes
  · split
    · exact .error
    · exact .bytes

/-- The encoded form of a chain without steps copies the register. -/
theorem fetchArg_word {a : FetchArg} {c : Chain} (hnil : c.steps = []) (regs : PtRegs)
    (u : UserMemory) (leaf : Nat) :
    fetchArg regs u leaf (c.encoded a) = ArgData.ofBytes (wordBytes (regs.reg c.reg)) := by
  have htype : (c.encoded a).type = .reg := by simp [Chain.encoded, hnil]
  rw [fetchArg, htype]
  dsimp only
  rw [fetchArgsFromReg, Chain.encoded, readReg_registerConstants]

/-- The encoded form of a chain with steps follows them. -/
theorem fetchArg_steps {a : FetchArg} {c : Chain} (hne : c.steps ≠ []) (regs : PtRegs)
    (u : UserMemory) (leaf : Nat) :
    fetchArg regs u leaf (c.encoded a) =
      if a.nilCheck && regs.reg c.reg == 0 then ArgData.ofNil
      else
        match effectiveAddr u leaf 0 (encodedSteps c.steps) (regs.reg c.reg) with
        | none => ArgData.ofError
        | some addr => copyLeaf u leaf (UInt8.ofInt a.size) addr := by
  have htype : (c.encoded a).type = .memory := by
    simp [Chain.encoded, List.isEmpty_eq_false_iff.mpr hne]
  have hreg : readReg regs (c.encoded a).reg = regs.reg c.reg :=
    readReg_registerConstants regs c.reg
  have htaken : takenSteps (c.encoded a).length (c.encoded a).steps = encodedSteps c.steps :=
    takenSteps_encodeSteps c.length_lt
  rw [fetchArg, htype]
  dsimp only
  rw [fetchArgsFromMemory, fetchFrom, htaken, hreg]
  rfl

/-- A leaf with a chain: a word from the register, or the bytes at the address that the
chain denotes. -/
theorem fetchArg_chain {a : FetchArg} (c : Chain) (hpos : 0 ≤ a.size)
    (hle : a.size ≤ maxDataSize) (regs : PtRegs) (u : UserMemory) (leaf : Nat) :
    (c.steps = [] → fetchArg regs u leaf (c.encoded a) =
      ArgData.ofBytes (wordBytes (regs.reg c.reg))) ∧
    (c.steps ≠ [] → Copied u.mem (c.addr regs u.mem) a.size.toNat
      (fetchArg regs u leaf (c.encoded a))) := by
  refine ⟨fun hnil => fetchArg_word hnil regs u leaf, fun hne => ?_⟩
  rw [fetchArg_steps hne]
  split
  · exact .nil
  · rcases effectiveAddr_encoded c.fits 0 (regs.reg c.reg) with hnone | hsome
    · rw [hnone]
      exact .error
    · rw [hsome]
      exact copyLeaf_copied u leaf hpos hle _

end GoFtrace.Bpf
