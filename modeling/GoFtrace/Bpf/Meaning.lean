import GoFtrace.Bpf.Chain
import GoFtrace.Uprobe.Accepted

/-!
# The meaning of a fetch statement

What a user's statement says, read off its text, and what the programs fetch for it.

* `fetchArg_meaning`: a statement that `struct arg_rule` can express is fetched as it says.
* `newFetchArg_meaning`: which accepted statements mean what they say.
-/

namespace GoFtrace.Bpf

open Lib (Memory wordBytes)
open Uprobe (Accepted Reg FetchArg FetchError newFetchArg newFetchOp parseInt pieces registerOfName
  typeSize)

/-! ## What a statement says -/

/-- What `(expr):type` says: start from a register, take the steps from the inside out, take
the bytes of the type there. -/
structure Statement where
  reg : Reg
  steps : List Step
  size : Nat

/-- `%reg`. -/
def readReg? : List Char → Option Reg
  | '%' :: name => registerOfName name
  | _ => none

/-- `+N`, `N` or `*N`. -/
def readStep? : List Char → Option Step
  | '*' :: off => (parseInt off).map fun n => (n, true)
  | off => (parseInt off).map fun n => (n, false)

/-- The statement that a text makes: its innermost piece names the register, every other
piece is a step. -/
def Statement.ofText (text : String) : Option Statement :=
  match text.toList.splitOn ':' with
  | [argAddr, argType] =>
    match (pieces argAddr).reverse, typeSize argType with
    | inner :: outer, .ok size => do
      let reg ← readReg? inner
      let steps ← outer.mapM readStep?
      return { reg := reg, steps := steps, size := size.toNat }
    | _, _ => none
  | _ => none

namespace Statement

/-- The address that the steps lead to, unless a load fails. -/
def follow (u : UserMemory) (leaf : Nat) : Nat → List Step → UInt64 → Option UInt64
  | _, [], addr => some addr
  | i, (off, false) :: steps, addr => follow u leaf (i + 1) steps (addr + UInt64.ofInt off)
  | i, (off, true) :: steps, addr =>
    if u.fails leaf i then none
    else follow u leaf (i + 1) steps (u.mem.wordAt (addr + UInt64.ofInt off))

/-- What a statement denotes: the bytes, or `none` when a read fails. -/
def meaning (s : Statement) (regs : PtRegs) (u : UserMemory) (leaf : Nat) : Option (List UInt8) :=
  if s.steps = [] then some ((wordBytes (regs.reg s.reg)).take s.size)
  else
    match follow u leaf 0 s.steps (regs.reg s.reg) with
    | none => none
    | some addr => if u.fails leaf 8 then none else some (u.mem.slice addr s.size)

/-- What `struct arg_rule` can express. -/
structure Expressible (s : Statement) : Prop where
  length_lt : s.steps.length < Uprobe.maxFetchArgRules
  fits : ∀ step ∈ s.steps, FitsInt16 step.1
  word : s.steps = [] → s.size ≤ 8

end Statement

/-- The bytes of a leaf, or `none` for `read_error`. -/
def ArgData.result (d : ArgData) (size : Nat) : Option (List UInt8) :=
  if d.readError then none else some (d.data.take size)

/-- A statement that is accepted means what it says: it says something that can be
expressed, and that is what is fetched. -/
def MeansWhatItSays (varname text : String) : Prop :=
  ∀ arg rule, newFetchArg varname text = .ok arg → encodeArg arg = .ok rule →
    ∃ s, Statement.ofText text = some s ∧ s.Expressible ∧
      ∀ regs u leaf, (fetchArg regs u leaf rule).result s.size = s.meaning regs u leaf

/-! ## Fetching -/

theorem effectiveAddr_follow (u : UserMemory) (leaf : Nat) {steps : List Step}
    (hfits : ∀ s ∈ steps, FitsInt16 s.1) (i : Nat) (addr : UInt64) :
    effectiveAddr u leaf i (encodedSteps steps) addr = Statement.follow u leaf i steps addr := by
  induction steps generalizing i addr with
  | nil => rfl
  | cons s steps ih =>
    obtain ⟨off, deref⟩ := s
    have hoff : (Int16.ofInt off).toInt = off :=
      FitsInt16.toInt_ofInt (hfits _ List.mem_cons_self)
    have hsteps : ∀ s ∈ steps, FitsInt16 s.1 := fun s hs =>
      hfits s (List.mem_cons_of_mem _ hs)
    rw [encodedSteps, List.map_cons, ← encodedSteps, effectiveAddr]
    dsimp only
    rw [hoff]
    cases deref with
    | false => exact ih hsteps _ _
    | true =>
      rw [Statement.follow, if_pos rfl]
      split
      · rfl
      · exact ih hsteps _ _

theorem result_ofBytes {bs : List UInt8} {n : Nat} (hlen : bs.length ≤ maxDataSize)
    (hn : n ≤ bs.length) : (ArgData.ofBytes bs).result n = some (bs.take n) := by
  rw [ArgData.result, ArgData.ofBytes_readError, if_neg Bool.false_ne_true,
    ArgData.ofBytes_data hlen, List.take_append_of_le_length hn]

/-- A statement that can be expressed is fetched as it says. -/
theorem fetchArg_meaning {s : Statement} (h : s.Expressible) {a : FetchArg} {rule : ArgRule}
    (hrules : a.rules = .register (some s.reg) :: stepRules s.steps) (hsize : a.size = s.size)
    (hpos : 0 < s.size) (hle : s.size ≤ maxDataSize) (hnil : a.nilCheck = false)
    (hrule : encodeArg a = .ok rule) (regs : PtRegs) (u : UserMemory) (leaf : Nat) :
    (fetchArg regs u leaf rule).result s.size = s.meaning regs u leaf := by
  have hchain : encodeArg a = .ok (Chain.encoded ⟨s.reg, s.steps, h.length_lt, h.fits⟩ a) :=
    encodeArg_chain hrules
  rw [hchain] at hrule
  cases hrule
  rw [Statement.meaning]
  split
  · rename_i hsteps
    have hword := h.word hsteps
    rw [fetchArg_word hsteps]
    exact result_ofBytes (by simp [maxDataSize]) (by simpa using hword)
  · rename_i hsteps
    rw [fetchArg_steps hsteps, hnil, effectiveAddr_follow u leaf h.fits, Bool.false_and,
      if_neg Bool.false_ne_true]
    cases Statement.follow u leaf 0 s.steps (regs.reg s.reg) with
    | none => rfl
    | some addr =>
      dsimp only
      unfold copyLeaf
      rw [hsize, size_stored (by omega) (by exact_mod_cast hle), Int.toNat_natCast]
      dsimp only
      rw [if_neg (by omega)]
      split
      · rfl
      · rw [result_ofBytes (by simpa using hle) (by simp)]
        simp

/-! ## Accepted statements -/

theorem newFetchOp_register {piece : List Char} {r : Reg} {rule : Uprobe.ArgRule}
    (hread : readReg? piece = some r) (h : newFetchOp piece = .ok rule) :
    rule = .register (some r) := by
  cases piece with
  | nil => cases hread
  | cons c name =>
    by_cases hc : c = '%'
    · subst hc
      have hname : registerOfName name = some r := hread
      rw [newFetchOp, hname] at h
      cases h
      rfl
    · rw [readReg?] at hread
      · cases hread
      · intro name' heq
        cases heq
        exact hc rfl

theorem newFetchOp_step {piece : List Char} {s : Step} {rule : Uprobe.ArgRule}
    (hread : readStep? piece = some s) (h : newFetchOp piece = .ok rule) :
    rule = .stack s.1 s.2 := by
  unfold newFetchOp at h
  split at h
  · cases h
  · -- a register name is no number
    rename_i name
    have hno : readStep? ('%' :: name) = none := rfl
    rw [hno] at hread
    cases hread
  · rename_i off
    rw [readStep?] at hread
    cases hoff : parseInt off with
    | none => rw [hoff] at h; cases h
    | some n =>
      rw [hoff] at h hread
      cases h
      cases hread
      rfl
  · rename_i hnil hreg hstar
    rw [readStep?] at hread
    · cases hoff : parseInt piece with
      | none => rw [hoff] at h; cases h
      | some n =>
        rw [hoff] at h hread
        cases h
        cases hread
        rfl
    · exact fun op heq => hstar op heq

theorem rules_of_steps {outer : List (List Char)} {steps : List Step}
    {rules : List Uprobe.ArgRule}
    (hsteps : List.Forall₂ (fun piece step => readStep? piece = some step) outer steps)
    (hrules : List.Forall₂ (fun piece rule => newFetchOp piece = .ok rule) outer rules) :
    rules = stepRules steps := by
  induction hsteps generalizing rules with
  | nil =>
    cases hrules
    rfl
  | cons hread _ ih =>
    obtain ⟨rule, rest, hrule, hrest, rfl⟩ := List.forall₂_cons_left_iff.mp hrules
    rw [newFetchOp_step hread hrule, ih hrest]
    rfl

/-- The rules of a statement are its register and its steps. -/
theorem rules_of_ofText {varname text : String} {a : FetchArg} {s : Statement}
    (harg : newFetchArg varname text = .ok a) (hs : Statement.ofText text = some s) :
    a.rules = .register (some s.reg) :: stepRules s.steps ∧ a.size = s.size := by
  obtain ⟨argAddr, argType, hsplit, htype, hrules, -⟩ := Uprobe.newFetchArg_ok harg
  obtain ⟨hpos, -⟩ := Uprobe.typeSize_bounds htype
  rw [Statement.ofText, hsplit] at hs
  dsimp only at hs
  cases hpieces : (pieces argAddr).reverse with
  | nil => rw [hpieces] at hs; cases hs
  | cons inner outer =>
    rw [hpieces, htype] at hs
    rw [hpieces] at hrules
    obtain ⟨rule, rest, hrule, hrest, heq⟩ := List.forall₂_cons_left_iff.mp hrules
    dsimp only at hs
    cases hreg : readReg? inner with
    | none => rw [hreg] at hs; cases hs
    | some reg =>
      cases hsteps : outer.mapM readStep? with
      | none => rw [hreg, hsteps] at hs; cases hs
      | some steps =>
        rw [hreg, hsteps] at hs
        cases hs
        refine ⟨?_, (Int.toNat_of_nonneg (Int.le_of_lt hpos)).symm⟩
        rw [heq, newFetchOp_register hreg hrule, rules_of_steps (Lib.mapM_some hsteps) hrest]

/-- A text that is taken by both: it is accepted, and has one to eight pieces. -/
def Storable (text : String) : Prop :=
  Accepted text ∧ ∀ argAddr argType, text.toList.splitOn ':' = [argAddr, argType] →
    0 < (pieces argAddr).length ∧ (pieces argAddr).length ≤ Uprobe.maxFetchArgRules

/-- `setArgRules` takes a chain of one to eight rules. -/
theorem encodeArg_iff {a : FetchArg} :
    (∃ rule, encodeArg a = .ok rule) ↔
      0 < a.rules.length ∧ a.rules.length ≤ Uprobe.maxFetchArgRules := by
  unfold encodeArg
  by_cases hmany : Uprobe.maxFetchArgRules < a.rules.length
  · rw [if_pos hmany]
    exact ⟨nofun, fun h => absurd hmany (not_lt.mpr h.2)⟩
  · rw [if_neg hmany]
    cases hrules : a.rules with
    | nil => exact ⟨nofun, fun h => absurd h.1 (lt_irrefl 0)⟩
    | cons rule rules =>
      rw [hrules] at hmany
      rw [List.head?_cons, List.getLast?_cons]
      exact ⟨fun _ => ⟨Nat.succ_pos _, not_lt.mp hmany⟩, fun _ => ⟨_, rfl⟩⟩

/-- The texts that both take, told without running them. -/
theorem storable_iff (varname text : String) :
    Storable text ↔ ∃ arg rule, newFetchArg varname text = .ok arg ∧ encodeArg arg = .ok rule := by
  have hlength : ∀ arg, newFetchArg varname text = .ok arg → ∃ argAddr argType,
      text.toList.splitOn ':' = [argAddr, argType] ∧
        arg.rules.length = (pieces argAddr).length := by
    intro arg harg
    obtain ⟨argAddr, argType, hsplit, -, hrules, -⟩ := Uprobe.newFetchArg_ok harg
    exact ⟨argAddr, argType, hsplit, by rw [← hrules.length_eq, List.length_reverse]⟩
  constructor
  · rintro ⟨haccepted, hpieces⟩
    rcases Uprobe.newFetchArg_cases varname text with ⟨-, arg, harg⟩ | ⟨hrejected, -⟩
    · obtain ⟨argAddr, argType, hsplit, hlen⟩ := hlength arg harg
      have hbounds := hpieces argAddr argType hsplit
      rw [← hlen] at hbounds
      obtain ⟨rule, hrule⟩ := encodeArg_iff.mpr hbounds
      exact ⟨arg, rule, harg, hrule⟩
    · exact absurd haccepted hrejected
  · rintro ⟨arg, rule, harg, hrule⟩
    obtain ⟨argAddr, argType, hsplit, hlen⟩ := hlength arg harg
    refine ⟨Uprobe.accepted_of_ok harg, fun addr type heq => ?_⟩
    rw [hsplit] at heq
    cases heq
    rw [← hlen]
    exact encodeArg_iff.mp ⟨rule, hrule⟩

/-- Which statements mean what they say: those that are not taken, and those whose innermost
piece is a register and whose other pieces are at most seven steps with offsets of 16 bits, a
register alone with a type of at most eight bytes. -/
theorem newFetchArg_meaning (varname text : String) :
    MeansWhatItSays varname text ↔
      (Storable text → ∃ s, Statement.ofText text = some s ∧ s.Expressible) := by
  rw [storable_iff varname]
  constructor
  · rintro h ⟨arg, rule, harg, hrule⟩
    obtain ⟨s, hs, hexpr, -⟩ := h arg rule harg hrule
    exact ⟨s, hs, hexpr⟩
  · intro h arg rule harg hrule
    obtain ⟨s, hs, hexpr⟩ := h ⟨arg, rule, harg, hrule⟩
    obtain ⟨hrules, hsize⟩ := rules_of_ofText harg hs
    obtain ⟨_, _, -, htype, -, hnil, -⟩ := Uprobe.newFetchArg_ok harg
    obtain ⟨hpos, hle⟩ := Uprobe.typeSize_bounds htype
    rw [hsize] at hpos hle
    exact ⟨s, hs, hexpr, fetchArg_meaning hexpr hrules hsize (by exact_mod_cast hpos)
      (by exact_mod_cast hle) hnil hrule⟩

/-! ## An offset of seventeen bits -/

/-- A byte at 40000. -/
def sampleMemory : UserMemory :=
  { mem := fun a => if a = 40000 then 1 else 0, fails := fun _ _ => false }

def sampleRegs : PtRegs := { ip := 0, reg := fun _ => 0 }

/-- `(+40000(%ax)):u64` is accepted and reads at `-25536`. -/
theorem offset_altered :
    (∃ arg rule s, newFetchArg "x" "(+40000(%ax)):u64" = .ok arg ∧ encodeArg arg = .ok rule ∧
      Statement.ofText "(+40000(%ax)):u64" = some s ∧
      s.meaning sampleRegs sampleMemory 0 = some [1, 0, 0, 0, 0, 0, 0, 0] ∧
      (fetchArg sampleRegs sampleMemory 0 rule).result s.size = some [0, 0, 0, 0, 0, 0, 0, 0]) ∧
    ¬ MeansWhatItSays "x" "(+40000(%ax)):u64" := by
  have harg : newFetchArg "x" "(+40000(%ax)):u64" =
      .ok { varname := "x", type := "u64", size := 8
            rules := [.register (some .ax), .stack 40000 false] } := by
    with_unfolding_all rfl
  have htext : Statement.ofText "(+40000(%ax)):u64" = some ⟨.ax, [(40000, false)], 8⟩ := by
    with_unfolding_all rfl
  refine ⟨⟨_, _, _, harg, rfl, htext, by with_unfolding_all decide, by with_unfolding_all decide⟩,
    fun h => ?_⟩
  obtain ⟨s, hs, hexpr, -⟩ := h _ _ harg rfl
  rw [htext] at hs
  cases hs
  exact absurd (hexpr.fits _ List.mem_cons_self) (by decide)

end GoFtrace.Bpf
