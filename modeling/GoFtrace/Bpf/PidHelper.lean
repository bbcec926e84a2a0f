import Mathlib.Data.UInt
import Mathlib.Logic.Function.Basic
import Mathlib.Logic.Relation

/-!
# A helper that is missing

`selectPidHelper` of `internal/bpf/pid_helper_compat.go`: on a kernel without
`bpf_get_ns_current_pid_tgid` each call of it is overwritten by an assignment, so that the programs
load and go on as if the call had failed.

* `fetch_patch`: every instruction stays at its place, for all jumps.
* `selectPidHelper_runs`: the programs run as before, with a helper that fails.
-/

namespace GoFtrace.Bpf

/-! ## Instructions -/

/-- `asm.Instruction`. -/
structure Instruction (μ : Type) where
  opCode : UInt8
  dst : UInt8 := 0
  src : UInt8 := 0
  offset : Int16 := 0
  constant : Int64 := 0
  metadata : μ
  deriving DecidableEq

/-- `asm.FnGetNsCurrentPidTgid`. -/
def fnGetNsCurrentPidTgid : Int64 := 120

/-- The operation of `asm.Mov.Imm`. -/
def movImm : UInt8 := 0xb7

/-- The operation of a `LoadImm` of 64 bits. -/
def loadImm : UInt8 := 0x18

variable {μ : Type}

namespace Instruction

/-- `OpCode.JumpOp() == asm.Call`: the class is `JumpClass` and the operation is `Call`. -/
def isCall (ins : Instruction μ) : Bool :=
  ins.opCode &&& 0x07 == 0x05 && ins.opCode &&& 0xf0 == 0x80

/-- A call of the helper. -/
def callsNsPid (ins : Instruction μ) : Bool :=
  ins.isCall && ins.constant == fnGetNsCurrentPidTgid

/-- `asm.Mov.Imm(asm.R0, -1)` with the metadata of a call. -/
def patched (ins : Instruction μ) : Instruction μ :=
  { opCode := movImm, constant := -1, metadata := ins.metadata }

/-- One turn of the inner loop. -/
def patch (ins : Instruction μ) : Instruction μ := if ins.callsNsPid then ins.patched else ins

/-- The slots of 8 bytes that an instruction takes. -/
def slots (ins : Instruction μ) : Nat := if ins.opCode = loadImm then 2 else 1

theorem patched_isCall (ins : Instruction μ) : ins.patched.isCall = false := by
  show (movImm &&& 0x07 == 0x05 && movImm &&& 0xf0 == 0x80) = false
  decide

theorem patched_callsNsPid (ins : Instruction μ) : ins.patched.callsNsPid = false := by
  rw [callsNsPid, ins.patched_isCall, Bool.false_and]

theorem patch_callsNsPid (ins : Instruction μ) : ins.patch.callsNsPid = false := by
  unfold patch
  split
  · exact ins.patched_callsNsPid
  · rename_i h
    exact Bool.eq_false_iff.mpr h

theorem patch_of_not_calls {ins : Instruction μ} (h : ins.callsNsPid = false) :
    ins.patch = ins := by
  rw [patch, h, if_neg Bool.false_ne_true]

/-- A call takes one slot, as the assignment does. -/
theorem patch_slots (ins : Instruction μ) : ins.patch.slots = ins.slots := by
  unfold patch
  split
  · rename_i h
    have hcall : ins.isCall = true := (Bool.and_eq_true_iff.mp h).1
    have hop : ins.opCode ≠ loadImm := by
      intro hload
      rw [isCall, hload] at hcall
      exact absurd hcall (by decide)
    have hmov : ins.patched.opCode ≠ loadImm := (by decide : movImm ≠ loadImm)
    rw [slots, slots, if_neg hop, if_neg hmov]
  · rfl

theorem patch_metadata (ins : Instruction μ) : ins.patch.metadata = ins.metadata := by
  unfold patch
  split <;> rfl

end Instruction

/-! ## Programs -/

abbrev Instructions (μ : Type) : Type := List (Instruction μ)

/-- The loop over the instructions of a program: the count and the instructions. -/
def patchLoop : Instructions μ → Nat × Instructions μ
  | [] => (0, [])
  | ins :: rest =>
    let (n, rest) := patchLoop rest
    if ins.callsNsPid then (n + 1, ins.patched :: rest) else (n, ins :: rest)

/-- The programs of `ebpf.CollectionSpec` by their names; `none` is a nil program. -/
abbrev CollectionSpec (μ : Type) : Type := List (String × Option (Instructions μ))

/-- The loop over the programs. -/
def patchPrograms : CollectionSpec μ → Nat × CollectionSpec μ
  | [] => (0, [])
  | (name, none) :: rest =>
    let (n, rest) := patchPrograms rest
    (n, (name, none) :: rest)
  | (name, some prog) :: rest =>
    let (n, rest) := patchPrograms rest
    let (k, prog) := patchLoop prog
    (k + n, (name, some prog) :: rest)

/-- `disableNsPidHelper`. -/
def disableNsPidHelper (spec : Option (CollectionSpec μ)) : Nat × Option (CollectionSpec μ) :=
  match spec with
  | none => (0, none)
  | some spec =>
    let (n, spec) := patchPrograms spec
    (n, some spec)

/-- What `haveNsPidHelper` finds out. -/
inductive HelperProbe where
  | present | missing | inconclusive
  deriving DecidableEq, Repr

/-- `selectPidHelper`, up to what it logs. -/
def selectPidHelper (probe : HelperProbe) (spec : Option (CollectionSpec μ)) :
    Option (CollectionSpec μ) :=
  match probe with
  | .inconclusive | .present => spec
  | .missing => (disableNsPidHelper spec).2

theorem patchLoop_eq (prog : Instructions μ) :
    patchLoop prog = (prog.countP Instruction.callsNsPid, prog.map Instruction.patch) := by
  induction prog with
  | nil => rfl
  | cons ins rest ih =>
    rw [patchLoop, ih, List.countP_cons, List.map_cons, Instruction.patch]
    dsimp only
    cases ins.callsNsPid <;> rfl

theorem patchLoop_of_noCall {prog : Instructions μ} (h : ∀ ins ∈ prog, ins.callsNsPid = false) :
    patchLoop prog = (0, prog) := by
  have hcount : prog.countP Instruction.callsNsPid = 0 :=
    List.countP_eq_zero.mpr fun ins hins => by simp [h ins hins]
  have hmap : prog.map Instruction.patch = prog.map id :=
    List.map_congr_left fun ins hins => Instruction.patch_of_not_calls (h ins hins)
  rw [patchLoop_eq, hcount, hmap, List.map_id]

theorem patchPrograms_of_noCall {spec : CollectionSpec μ}
    (h : ∀ p ∈ spec, ∀ prog ∈ p.2, ∀ ins ∈ prog, ins.callsNsPid = false) :
    patchPrograms spec = (0, spec) := by
  induction spec with
  | nil => rfl
  | cons p rest ih =>
    have hrest := ih fun q hq => h q (List.mem_cons_of_mem _ hq)
    obtain ⟨name, prog⟩ := p
    cases prog with
    | none => rw [patchPrograms, hrest]
    | some prog =>
      have hprog := patchLoop_of_noCall (h _ List.mem_cons_self prog rfl)
      rw [patchPrograms, hrest, hprog]

theorem patchPrograms_snd (spec : CollectionSpec μ) :
    (patchPrograms spec).2 = spec.map fun p => (p.1, p.2.map (List.map Instruction.patch)) := by
  induction spec with
  | nil => rfl
  | cons p rest ih =>
    obtain ⟨name, prog⟩ := p
    cases prog with
    | none => exact congrArg ((name, none) :: ·) ih
    | some prog =>
      show (name, some (patchLoop prog).2) :: (patchPrograms rest).2 = _
      rw [ih, patchLoop_eq]
      rfl

/-! ## Runs -/

/-- The machine of a program: the slot of the next instruction, the registers and the rest. -/
structure Machine (ρ : Type) where
  pc : Nat
  regs : UInt8 → UInt64
  rest : ρ

/-- The instruction at a slot; `none` in the middle of an instruction and behind the last one. -/
def fetch : Instructions μ → Nat → Option (Instruction μ)
  | [], _ => none
  | ins :: _, 0 => some ins
  | ins :: rest, pc + 1 => if pc + 1 < ins.slots then none else fetch rest (pc + 1 - ins.slots)

/-- The places of all instructions stay, and with them the targets of all jumps. -/
theorem fetch_patch (prog : Instructions μ) (pc : Nat) :
    fetch (prog.map Instruction.patch) pc = (fetch prog pc).map Instruction.patch := by
  induction prog generalizing pc with
  | nil => rfl
  | cons ins rest ih =>
    cases pc with
    | zero => rfl
    | succ pc =>
      rw [List.map_cons, fetch, fetch, ins.patch_slots]
      split
      · rfl
      · exact ih _

section
variable {ρ : Type}

/-- Register 0 is set, and the next instruction follows. -/
def Machine.setR0 (m : Machine ρ) (v : UInt64) : Machine ρ :=
  { m with pc := m.pc + 1, regs := Function.update m.regs 0 v }

/-- `-1` as a register holds it. -/
def minusOne : UInt64 := (-1 : Int64).toUInt64

/-- How a kernel executes instructions. The assignment of a constant is fixed; a call of the
helper does what `helper` says, and `other` tells about all other instructions. -/
structure Kernel (μ ρ : Type) where
  helper : Machine ρ → Machine ρ → Prop
  other : Instruction μ → Machine ρ → Machine ρ → Prop

/-- One instruction. -/
def Kernel.Exec (k : Kernel μ ρ) (ins : Instruction μ) (m m' : Machine ρ) : Prop :=
  if ins.opCode = movImm ∧ ins.dst = 0 then m' = m.setR0 ins.constant.toUInt64
  else if ins.callsNsPid then k.helper m m'
  else k.other ins m m'

/-- One step of a program. -/
def Kernel.Step (k : Kernel μ ρ) (prog : Instructions μ) (m m' : Machine ρ) : Prop :=
  ∃ ins, fetch prog m.pc = some ins ∧ k.Exec ins m m'

/-- Runs of a program. -/
def Kernel.Runs (k : Kernel μ ρ) (prog : Instructions μ) : Machine ρ → Machine ρ → Prop :=
  Relation.ReflTransGen (k.Step prog)

/-- The kernel in which the helper fails: it returns `-1` and leaves the rest alone. -/
def Kernel.failing (k : Kernel μ ρ) : Kernel μ ρ :=
  { k with helper := fun m m' => m' = m.setR0 minusOne }

theorem Kernel.exec_patch (k : Kernel μ ρ) (ins : Instruction μ) (m m' : Machine ρ) :
    k.Exec ins.patch m m' ↔ k.failing.Exec ins m m' := by
  cases hcalls : ins.callsNsPid with
  | false =>
    rw [Instruction.patch_of_not_calls hcalls, Exec, Exec, hcalls, if_neg Bool.false_ne_true,
      if_neg Bool.false_ne_true]
    rfl
  | true =>
    have hop : ins.opCode ≠ movImm := by
      intro hmov
      have hcall := (Bool.and_eq_true_iff.mp hcalls).1
      rw [Instruction.isCall, hmov] at hcall
      exact absurd hcall (by decide)
    have hpatch : ins.patch = ins.patched := by
      rw [Instruction.patch, hcalls, if_pos rfl]
    rw [hpatch, Exec, Exec, if_pos ⟨rfl, rfl⟩, if_neg fun h => hop h.1, hcalls, if_pos rfl]
    rfl

theorem Kernel.step_patch (k : Kernel μ ρ) (prog : Instructions μ) :
    k.Step (prog.map Instruction.patch) = k.failing.Step prog := by
  ext m m'
  constructor
  · rintro ⟨ins', hfetch, hexec⟩
    rw [fetch_patch] at hfetch
    obtain ⟨ins, hins, rfl⟩ := Option.map_eq_some_iff.mp hfetch
    exact ⟨ins, hins, (k.exec_patch ins m m').mp hexec⟩
  · rintro ⟨ins, hins, hexec⟩
    refine ⟨ins.patch, ?_, (k.exec_patch ins m m').mpr hexec⟩
    rw [fetch_patch, hins]
    rfl

theorem Kernel.runs_patch (k : Kernel μ ρ) (prog : Instructions μ) (m m' : Machine ρ) :
    k.Runs (prog.map Instruction.patch) m m' ↔ k.failing.Runs prog m m' := by
  unfold Runs
  rw [k.step_patch]

end

/-! ## The result -/

/-- What a program is after `selectPidHelper`. -/
structure Selected (probe : HelperProbe) (prog prog' : Instructions μ) : Prop where
  /-- Only a kernel that is known to lack the helper gets another program. -/
  kept : probe ≠ .missing → prog' = prog
  /-- There no call of the helper is left for the verifier to reject. -/
  noCall : probe = .missing → ∀ ins ∈ prog', ins.callsNsPid = false
  /-- Any other instruction is kept as it is. -/
  others : List.Forall₂ (fun ins ins' => ins.callsNsPid = false → ins' = ins) prog prog'
  /-- The metadata, with the symbols and the references of jumps, stays where it was. -/
  metadata : prog'.map (·.metadata) = prog.map (·.metadata)
  slots : prog'.map (·.slots) = prog.map (·.slots)
  /-- Each run is a run of the program as it was compiled, in a kernel whose helper fails. -/
  runs : probe = .missing → ∀ (ρ : Type) (k : Kernel μ ρ) (m m' : Machine ρ),
    k.Runs prog' m m' ↔ k.failing.Runs prog m m'

theorem selected_missing (prog : Instructions μ) :
    Selected .missing prog (prog.map Instruction.patch) where
  kept h := absurd rfl h
  noCall _ ins hins := by
    obtain ⟨ins, -, rfl⟩ := List.mem_map.mp hins
    exact ins.patch_callsNsPid
  others := by
    rw [List.forall₂_map_right_iff, List.forall₂_same]
    exact fun ins _ h => Instruction.patch_of_not_calls h
  metadata := by
    rw [List.map_map]
    exact List.map_congr_left fun ins _ => ins.patch_metadata
  slots := by
    rw [List.map_map]
    exact List.map_congr_left fun ins _ => ins.patch_slots
  runs _ _ k m m' := k.runs_patch prog m m'

theorem selected_refl {probe : HelperProbe} (h : probe ≠ .missing) (prog : Instructions μ) :
    Selected probe prog prog where
  kept _ := rfl
  noCall h' := absurd h' h
  others := List.forall₂_same.mpr fun _ _ _ => rfl
  metadata := rfl
  slots := rfl
  runs h' := absurd h' h

theorem optionRel_map {α β : Type} {r : α → β → Prop} {f : α → β} (h : ∀ a, r a (f a))
    (o : Option α) : Option.Rel r o (o.map f) := by
  cases o with
  | none => exact .none
  | some a => exact .some (h a)

/-- The programs keep their names and their behaviour, but for the helper where it is missing; and
a second pass finds nothing to do. -/
theorem selectPidHelper_runs (probe : HelperProbe) (spec : CollectionSpec μ) :
    ∃ spec', selectPidHelper probe (some spec) = some spec' ∧
      List.Forall₂ (fun p p' => p.1 = p'.1 ∧ Option.Rel (Selected probe) p.2 p'.2) spec spec' ∧
      (probe = .missing → disableNsPidHelper (some spec') = (0, some spec')) := by
  by_cases hmissing : probe = .missing
  · subst hmissing
    refine ⟨_, congrArg some (patchPrograms_snd spec), ?_, fun _ => ?_⟩
    · rw [List.forall₂_map_right_iff, List.forall₂_same]
      intro p _
      exact ⟨rfl, optionRel_map selected_missing p.2⟩
    · rw [disableNsPidHelper, patchPrograms_of_noCall]
      intro p hp prog hprog ins hins
      obtain ⟨⟨name, prog₀⟩, -, rfl⟩ := List.mem_map.mp hp
      obtain ⟨prog₀, rfl, rfl⟩ := Option.map_eq_some_iff.mp (Option.mem_def.mp hprog)
      obtain ⟨ins, -, rfl⟩ := List.mem_map.mp hins
      exact ins.patch_callsNsPid
  · have hkeep : selectPidHelper probe (some spec) = some spec := by
      cases probe with
      | missing => exact absurd rfl hmissing
      | present => rfl
      | inconclusive => rfl
    refine ⟨spec, hkeep, ?_, fun h => absurd h hmissing⟩
    rw [List.forall₂_same]
    intro p _
    refine ⟨rfl, ?_⟩
    have hrel := @optionRel_map _ _ (Selected probe) id (selected_refl hmissing) p.2
    rwa [Option.map_id] at hrel

end GoFtrace.Bpf
