import Mathlib.Data.Int.ConditionallyCompleteOrder
import Mathlib.Data.List.Induction
import Mathlib.Data.Rat.Floor
import Mathlib.Order.WithBot
import Mathlib.Tactic.Linarith

/-!
# The adaptive sampler

`adaptiveSampler` of `cmd/sampler.go`: the denominator of the root-call sampling rate, from
the heap usage and the loss of the event queue in each window. Rates are exact rationals.

The float computation of `lossRaisedDenominator` up to its `uint32` is a parameter here.

* `adjust_cases`: what one window does.
* `run_stable`: what the counter of stable windows knows about the windows before.
-/

namespace GoFtrace.Sampler

/-! ## Constants -/

/-- `maxSampleDenominator`. -/
def maxSampleDenominator : UInt32 := 1048576

def lossNoiseThreshold : ℚ := 2 / 100

def lossSafetyFactor : ℚ := 3 / 2

def recoverStableWindows : Nat := 5

def unlockStableWindows : Nat := 15

/-- `percent`. -/
def percent (value p : UInt64) : UInt64 := value / 100 * p + value % 100 * p / 100

/-! ## One window -/

/-- `adaptiveSampler`. -/
structure AdaptiveSampler where
  memoryLimit : UInt64
  den : UInt32
  unsafeDen : UInt32
  stableWindows : Nat
  deriving DecidableEq, Repr

/-- `newAdaptiveSampler`. -/
def newAdaptiveSampler (memoryLimit : UInt64) : AdaptiveSampler :=
  { memoryLimit := memoryLimit, den := 1, unsafeDen := 0, stableWindows := 0 }

/-- `uint32(math.Ceil(float64(current)*lossSafetyFactor/(1-lossRate) - 1e-9))`, of the current
denominator and the loss rate. -/
abbrev Raised := UInt32 → ℚ → UInt32

/-- `lossRaisedDenominator`. -/
def lossRaisedDenominator (raise : Raised) (current : UInt32) (lossRate : ℚ) : UInt32 :=
  let raised := raise current lossRate
  let raised := if raised ≤ current then current + 1 else raised
  if maxSampleDenominator < raised then maxSampleDenominator else raised

/-- The heap usage and the loss rate that a window hands to `adjust`. -/
structure Window where
  heapAlloc : UInt64
  lossRate : ℚ
  deriving DecidableEq, Repr

/-- Whether the loss of a window exceeds the noise threshold. -/
def Window.lossy (w : Window) : Bool := decide (lossNoiseThreshold < w.lossRate)

namespace AdaptiveSampler

/-- `heapTarget`. -/
def heapTarget (s : AdaptiveSampler) (heapAlloc : UInt64) : UInt32 :=
  if s.memoryLimit ≤ heapAlloc then maxSampleDenominator
  else if percent s.memoryLimit 85 ≤ heapAlloc then 64
  else if percent s.memoryLimit 70 ≤ heapAlloc then 8
  else if percent s.memoryLimit 45 < heapAlloc then s.den
  else 1

/-- A window that dropped events: the denominator is unsafe. -/
def recordLoss (s : AdaptiveSampler) : AdaptiveSampler :=
  { s with
    stableWindows := 0
    unsafeDen := if s.unsafeDen < s.den then s.den else s.unsafeDen }

/-- A stable window: after a long run of them the unsafe floor is released. -/
def countStable (s : AdaptiveSampler) : AdaptiveSampler :=
  if unlockStableWindows ≤ s.stableWindows + 1 then
    { s with unsafeDen := s.unsafeDen / 2, stableWindows := 0 }
  else { s with stableWindows := s.stableWindows + 1 }

/-- The last `if` of `adjust`: a step towards the target. -/
def moveTo (s : AdaptiveSampler) (target : UInt32) : AdaptiveSampler :=
  if s.den < target then { s with den := target, stableWindows := 0 }
  else if target < s.den then
    if recoverStableWindows ≤ s.stableWindows ∧ s.unsafeDen < s.den / 2 then
      { s with den := if s.den / 2 < target then target else s.den / 2, stableWindows := 0 }
    else s
  else s

/-- `adjust`. -/
def adjust (raise : Raised) (s : AdaptiveSampler) (w : Window) : AdaptiveSampler :=
  let target := s.heapTarget w.heapAlloc
  if w.lossy then
    let raised := lossRaisedDenominator raise s.den w.lossRate
    s.recordLoss.moveTo (if target < raised then raised else target)
  else s.countStable.moveTo target

/-- What `adjust` returns: the denominator and whether it changed. -/
def adjustResult (raise : Raised) (s : AdaptiveSampler) (w : Window) : UInt32 × Bool :=
  ((s.adjust raise w).den, (s.adjust raise w).den != s.den)

/-- A sequence of windows. -/
def run (raise : Raised) (s : AdaptiveSampler) (ws : List Window) : AdaptiveSampler :=
  ws.foldl (adjust raise) s

theorem run_append (raise : Raised) (s : AdaptiveSampler) (ws vs : List Window) :
    s.run raise (ws ++ vs) = (s.run raise ws).run raise vs := List.foldl_append

/-! ## The outcome of a window -/

/-- Recovery is due: enough stable windows, and half the denominator is above the floor. -/
def Due (s : AdaptiveSampler) : Prop :=
  recoverStableWindows ≤ s.stableWindows ∧ s.unsafeDen.toNat < s.den.toNat / 2

instance (s : AdaptiveSampler) : Decidable s.Due := by unfold Due; infer_instance

/-- A step towards a target: up at once, down by halving when recovery is due, or none. -/
inductive Moves (s : AdaptiveSampler) (target : Nat) : AdaptiveSampler → Prop
  | up {den : UInt32} (htarget : s.den.toNat < target) (hden : den.toNat = target) :
      Moves s target { s with den := den, stableWindows := 0 }
  | down {den : UInt32} (htarget : target < s.den.toNat) (hdue : s.Due)
      (hden : den.toNat = max (s.den.toNat / 2) target) :
      Moves s target { s with den := den, stableWindows := 0 }
  | stay (htarget : target ≤ s.den.toNat) (hdue : target < s.den.toNat → ¬ s.Due) :
      Moves s target s

theorem moveTo_moves (s : AdaptiveSampler) (target : UInt32) :
    Moves s target.toNat (s.moveTo target) := by
  have hhalf : (s.den / 2).toNat = s.den.toNat / 2 := UInt32.toNat_div _ _
  unfold moveTo
  simp only [UInt32.lt_iff_toNat_lt, hhalf]
  split
  · rename_i hup
    exact .up hup rfl
  rename_i hup
  split
  · rename_i hdown
    split
    · rename_i hdue
      refine .down hdown hdue ?_
      split
      · omega
      · rw [hhalf]
        omega
    · rename_i hdue
      exact .stay (by omega) fun _ => hdue
  · exact .stay (by omega) (by omega)

/-! ## Bounds -/

@[simp] theorem cap_toNat : maxSampleDenominator.toNat = 1048576 := rfl

/-- The heap target is one of five denominators. -/
theorem heapTarget_cases (s : AdaptiveSampler) (h : UInt64) :
    (s.heapTarget h).toNat ∈ [1048576, 64, 8, s.den.toNat, 1] := by
  unfold heapTarget
  repeat' split
  all_goals simp

theorem heapTarget_bounds {s : AdaptiveSampler} (hlow : 1 ≤ s.den.toNat)
    (hhigh : s.den.toNat ≤ 1048576) (h : UInt64) :
    1 ≤ (s.heapTarget h).toNat ∧ (s.heapTarget h).toNat ≤ 1048576 := by
  have hcases := s.heapTarget_cases h
  simp only [List.mem_cons, List.not_mem_nil, or_false] at hcases
  omega

/-- The clamps of `lossRaisedDenominator`. -/
theorem lossRaised_toNat (raise : Raised) {current : UInt32}
    (hhigh : current.toNat ≤ 1048576) (lossRate : ℚ) :
    (lossRaisedDenominator raise current lossRate).toNat =
      min 1048576 (max (current.toNat + 1) (raise current lossRate).toNat) := by
  have hnext : (current + 1).toNat = current.toNat + 1 := by
    rw [UInt32.toNat_add]
    exact Nat.mod_eq_of_lt (by change current.toNat + 1 < 4294967296; omega)
  unfold lossRaisedDenominator
  dsimp only
  generalize raise current lossRate = raised
  simp only [UInt32.lt_iff_toNat_lt, UInt32.le_iff_toNat_le, cap_toNat]
  split
  · rw [hnext]
    split
    · rw [cap_toNat]
      omega
    · rw [hnext]
      omega
  · split
    · rw [cap_toNat]
      omega
    · omega

/-- A lossy window asks for at least one step more, up to the cap. -/
theorem lossRaised_bounds (raise : Raised) {current : UInt32}
    (hhigh : current.toNat ≤ 1048576) (lossRate : ℚ) :
    min (current.toNat + 1) 1048576 ≤ (lossRaisedDenominator raise current lossRate).toNat ∧
      (lossRaisedDenominator raise current lossRate).toNat ≤ 1048576 := by
  rw [lossRaised_toNat raise hhigh]
  omega

/-- The safety band: the denominator is above the unsafe floor, or both are at the cap. -/
structure InBand (s : AdaptiveSampler) : Prop where
  low : 1 ≤ s.den.toNat
  high : s.den.toNat ≤ 1048576
  above : s.unsafeDen.toNat < s.den.toNat ∨ s.den.toNat = 1048576 ∧ s.unsafeDen.toNat = 1048576
  counter : s.stableWindows < unlockStableWindows

theorem InBand.unsafe_le {s : AdaptiveSampler} (h : s.InBand) :
    s.unsafeDen.toNat ≤ s.den.toNat := by
  rcases h.above with hlt | ⟨hden, hmark⟩
  · exact Nat.le_of_lt hlt
  · rw [hden, hmark]

theorem newAdaptiveSampler_inBand (memoryLimit : UInt64) :
    (newAdaptiveSampler memoryLimit).InBand where
  low := Nat.le_refl 1
  high := (by decide : 1 ≤ 1048576)
  above := .inl Nat.one_pos
  counter := (by decide : 0 < 15)

theorem recordLoss_unsafe (s : AdaptiveSampler) :
    s.recordLoss.unsafeDen.toNat = max s.unsafeDen.toNat s.den.toNat := by
  unfold recordLoss
  dsimp only
  simp only [UInt32.lt_iff_toNat_lt]
  split <;> omega

/-- The two ways to count a stable window. -/
theorem countStable_cases (s : AdaptiveSampler) :
    s.countStable.den = s.den ∧
      (unlockStableWindows ≤ s.stableWindows + 1 ∧ s.countStable.stableWindows = 0 ∧
          s.countStable.unsafeDen.toNat = s.unsafeDen.toNat / 2 ∨
        s.stableWindows + 1 < unlockStableWindows ∧
          s.countStable.stableWindows = s.stableWindows + 1 ∧
          s.countStable.unsafeDen = s.unsafeDen) := by
  unfold countStable
  split
  · exact ⟨rfl, .inl ⟨by assumption, rfl, UInt32.toNat_div _ _⟩⟩
  · exact ⟨rfl, .inr ⟨by omega, rfl, rfl⟩⟩

/-- What one window does. -/
theorem adjust_cases (raise : Raised) {s : AdaptiveSampler} (w : Window) :
    (w.lossy = true ∧ Moves s.recordLoss (max (s.heapTarget w.heapAlloc).toNat
        (lossRaisedDenominator raise s.den w.lossRate).toNat) (s.adjust raise w)) ∨
      (w.lossy = false ∧
        Moves s.countStable (s.heapTarget w.heapAlloc).toNat (s.adjust raise w)) := by
  unfold adjust
  dsimp only
  cases hlossy : w.lossy with
  | true =>
    refine .inl ⟨rfl, ?_⟩
    rw [if_pos rfl]
    have hmoves := s.recordLoss.moveTo_moves
      (if s.heapTarget w.heapAlloc < lossRaisedDenominator raise s.den w.lossRate then
        lossRaisedDenominator raise s.den w.lossRate else s.heapTarget w.heapAlloc)
    have hmax : (if s.heapTarget w.heapAlloc < lossRaisedDenominator raise s.den w.lossRate then
        lossRaisedDenominator raise s.den w.lossRate else s.heapTarget w.heapAlloc).toNat =
        max (s.heapTarget w.heapAlloc).toNat
          (lossRaisedDenominator raise s.den w.lossRate).toNat := by
      simp only [UInt32.lt_iff_toNat_lt]
      split <;> omega
    rwa [hmax] at hmoves
  | false =>
    refine .inr ⟨rfl, ?_⟩
    rw [if_neg Bool.false_ne_true]
    exact s.countStable.moveTo_moves _

/-- A lossy window never lowers the denominator. -/
theorem adjust_lossy (raise : Raised) {s : AdaptiveSampler} {w : Window}
    (hlossy : w.lossy = true) :
    (s.adjust raise w).stableWindows = 0 ∧
      (s.adjust raise w).unsafeDen.toNat = max s.unsafeDen.toNat s.den.toNat ∧
      (s.adjust raise w).den.toNat = max s.den.toNat (max (s.heapTarget w.heapAlloc).toNat
        (lossRaisedDenominator raise s.den w.lossRate).toNat) := by
  rcases s.adjust_cases raise w with ⟨-, hmoves⟩ | ⟨hno, -⟩
  · generalize s.adjust raise w = s' at hmoves
    have hmark := s.recordLoss_unsafe
    have hden : s.recordLoss.den = s.den := rfl
    cases hmoves with
    | up htarget hnew =>
      rw [hden] at htarget
      exact ⟨rfl, hmark, by dsimp only; omega⟩
    | down htarget hdue hnew => exact absurd hdue.1 (by decide : ¬ 5 ≤ 0)
    | stay htarget hdue =>
      rw [hden] at htarget
      exact ⟨rfl, hmark, by rw [hden]; omega⟩
  · rw [hlossy] at hno
    cases hno

theorem raised_above {D U T R M : Nat} (hU : U ≤ D) (hD : D ≤ M) (hlow : min (D + 1) M ≤ R)
    (hT : T ≤ M) (hR : R ≤ M) : max U D < max D (max T R) ∨ max D (max T R) = M ∧ max U D = M := by
  rcases Nat.lt_or_ge D M with hlt | hge
  · exact .inl (by omega)
  · omega

/-- One window keeps the band. -/
theorem adjust_inBand (raise : Raised) {s : AdaptiveSampler} (h : s.InBand) (w : Window) :
    (s.adjust raise w).InBand := by
  have hle := h.unsafe_le
  obtain ⟨hlow, hhigh, habove, hcounter⟩ := h
  have htarget := heapTarget_bounds hlow hhigh w.heapAlloc
  cases hlossy : w.lossy with
  | true =>
    obtain ⟨hstable, hmark, hden⟩ := adjust_lossy raise (s := s) hlossy
    have hraised := lossRaised_bounds raise hhigh w.lossRate
    refine ⟨?_, ?_, ?_, by rw [hstable]; decide⟩
    · rw [hden]
      exact Nat.le_trans hlow (Nat.le_max_left _ _)
    · rw [hden]
      exact Nat.max_le.mpr ⟨hhigh, Nat.max_le.mpr ⟨htarget.2, hraised.2⟩⟩
    · rw [hden, hmark]
      exact raised_above hle hhigh hraised.1 htarget.2 hraised.2
  | false =>
    rcases s.adjust_cases raise w with ⟨hyes, -⟩ | ⟨-, hmoves⟩
    · rw [hlossy] at hyes
      cases hyes
    obtain ⟨hden, hcount⟩ := s.countStable_cases
    generalize s.adjust raise w = s' at hmoves
    have hfloor : s.countStable.unsafeDen.toNat ≤ s.unsafeDen.toNat ∧
        s.countStable.stableWindows < unlockStableWindows := by
      rcases hcount with ⟨-, hstable, hmark⟩ | ⟨hless, hstable, hmark⟩
      · rw [hstable, hmark]
        exact ⟨Nat.div_le_self _ _, by decide⟩
      · rw [hstable, hmark]
        exact ⟨Nat.le_refl _, hless⟩
    have habove' : s.countStable.unsafeDen.toNat < s.den.toNat ∨
        s.den.toNat = 1048576 ∧ s.countStable.unsafeDen.toNat = 1048576 := by
      have hfloored := hfloor.1
      rcases habove with hlt | ⟨hcap, hmark⟩
      · exact .inl (Nat.lt_of_le_of_lt hfloored hlt)
      · rw [hcap]
        rw [hmark] at hfloored
        rcases Nat.lt_or_eq_of_le hfloored with hlt | heq
        · exact .inl hlt
        · exact .inr ⟨rfl, heq⟩
    generalize s.countStable = c at hmoves hden hfloor habove'
    rw [← hden] at hlow hhigh habove'
    cases hmoves with
    | up htop hnew =>
      refine ⟨?_, ?_, ?_, (by decide : 0 < 15)⟩
      · rw [hnew]
        exact htarget.1
      · rw [hnew]
        exact htarget.2
      · rw [hnew]
        refine .inl (Nat.lt_of_le_of_lt ?_ htop)
        rcases habove' with hlt | ⟨hcap, hmark⟩
        · exact Nat.le_of_lt hlt
        · rw [hcap, hmark]
    | down htop hdue hnew =>
      obtain ⟨-, hdue⟩ := hdue
      have hhalf : c.unsafeDen.toNat < max (c.den.toNat / 2) (s.heapTarget w.heapAlloc).toNat :=
        Nat.lt_of_lt_of_le hdue (Nat.le_max_left _ _)
      refine ⟨?_, ?_, ?_, (by decide : 0 < 15)⟩
      · rw [hnew]
        exact Nat.le_trans htarget.1 (Nat.le_max_right _ _)
      · rw [hnew]
        exact Nat.max_le.mpr ⟨by omega, htarget.2⟩
      · rw [hnew]
        exact .inl hhalf
    | stay htop hdue =>
      exact ⟨hlow, hhigh, habove', hfloor.2⟩

/-- The band holds after any number of windows. -/
theorem run_inBand (raise : Raised) {s : AdaptiveSampler} (h : s.InBand) (ws : List Window) :
    (s.run raise ws).InBand := by
  induction ws generalizing s with
  | nil => exact h
  | cons w ws ih => exact ih (adjust_inBand raise h w)

/-! ## Stable windows -/

/-- The last windows of a run, as many as the counter says: none was lossy, and the
denominator was the same all along. -/
def Stable (raise : Raised) (s : AdaptiveSampler) (ws : List Window) : Prop :=
  ∃ before last, ws = before ++ last ∧ last.length = (s.run raise ws).stableWindows ∧
    (∀ w ∈ last, w.lossy = false) ∧
    ∀ j, (s.run raise (before ++ last.take j)).den = (s.run raise ws).den

theorem run_concat (raise : Raised) (s : AdaptiveSampler) (ws : List Window) (w : Window) :
    s.run raise (ws ++ [w]) = (s.run raise ws).adjust raise w :=
  run_append raise s ws [w]

/-- A counter at zero says nothing. -/
theorem stable_zero {raise : Raised} {s : AdaptiveSampler} {ws : List Window}
    (h : (s.run raise ws).stableWindows = 0) : Stable raise s ws :=
  ⟨ws, [], (List.append_nil ws).symm, h.symm, nofun, fun j => by
    rw [List.take_nil, List.append_nil]⟩

theorem run_stable (raise : Raised) {s : AdaptiveSampler} (h : s.stableWindows = 0)
    (ws : List Window) : Stable raise s ws := by
  induction ws using List.reverseRec with
  | nil => exact stable_zero h
  | append_singleton ws w ih =>
    rcases (s.run raise ws).adjust_cases raise w with ⟨hlossy, -⟩ | ⟨hlossy, hmoves⟩
    · exact stable_zero (by rw [run_concat]; exact (adjust_lossy raise hlossy).1)
    · obtain ⟨hden, hcount⟩ := (s.run raise ws).countStable_cases
      rw [← run_concat] at hmoves
      generalize hnext : s.run raise (ws ++ [w]) = s' at hmoves
      cases hmoves with
      | up htop hnew => exact stable_zero (by rw [hnext])
      | down htop hdue hnew => exact stable_zero (by rw [hnext])
      | stay htop hdue =>
        rcases hcount with ⟨-, hzero, -⟩ | ⟨-, hsucc, -⟩
        · exact stable_zero (by rw [hnext, hzero])
        · obtain ⟨before, last, rfl, hlen, hquiet, hsame⟩ := ih
          refine ⟨before, last ++ [w], (List.append_assoc _ _ _), ?_, ?_, fun j => ?_⟩
          · rw [hnext, hsucc, List.length_append, hlen]
            rfl
          · exact List.forall_mem_append.mpr ⟨hquiet, List.forall_mem_singleton.mpr hlossy⟩
          · by_cases hj : j ≤ last.length
            · rw [List.take_append_of_le_length hj, hsame, hnext, hden]
            · rw [List.take_of_length_le (by rw [List.length_append]; exact Nat.not_le.mp hj),
                ← List.append_assoc]

/-- The last `n` of the stable windows. -/
theorem Stable.last {raise : Raised} {s : AdaptiveSampler} {ws : List Window}
    (h : Stable raise s ws) {n : Nat} (hn : n ≤ (s.run raise ws).stableWindows) :
    ∃ before last, ws = before ++ last ∧ last.length = n ∧ (∀ w ∈ last, w.lossy = false) ∧
      ∀ j, (s.run raise (before ++ last.take j)).den = (s.run raise ws).den := by
  obtain ⟨before, last, hws, hlen, hquiet, hsame⟩ := h
  rw [← hlen] at hn
  refine ⟨before ++ last.take (last.length - n), last.drop (last.length - n), ?_, ?_, ?_, ?_⟩
  · rw [List.append_assoc, List.take_append_drop, hws]
  · rw [List.length_drop]
    omega
  · exact fun w hw => hquiet w (List.mem_of_mem_drop hw)
  · intro j
    have htake : last.take (last.length - n) ++ (last.drop (last.length - n)).take j =
        last.take (last.length - n + j) := by rw [List.take_add]
    rw [List.append_assoc, htake]
    exact hsame _

/-- What is known of a call that lowers the denominator, after the windows `ws`: it halves it,
stays above the unsafe floor, and ends five stable windows with the same denominator. -/
structure Lowers (raise : Raised) (init : AdaptiveSampler) (ws : List Window) (w : Window) :
    Prop where
  halved : ((init.run raise ws).adjust raise w).den.toNat =
    max ((init.run raise ws).den.toNat / 2)
      ((init.run raise ws).heapTarget w.heapAlloc).toNat
  above : ((init.run raise ws).adjust raise w).unsafeDen.toNat <
    ((init.run raise ws).adjust raise w).den.toNat
  quiet : w.lossy = false
  before : ∃ before last, ws = before ++ last ∧ last.length = 4 ∧ (∀ v ∈ last, v.lossy = false) ∧
    ∀ j, (init.run raise (before ++ last.take j)).den = (init.run raise ws).den

theorem adjust_lowers (raise : Raised) {init : AdaptiveSampler}
    (hinit : init.stableWindows = 0) (ws : List Window) (w : Window)
    (h : ((init.run raise ws).adjust raise w).den.toNat <
      (init.run raise ws).den.toNat) : Lowers raise init ws w := by
  have hstable := run_stable raise hinit ws
  generalize hs : init.run raise ws = s at h hstable
  rcases s.adjust_cases raise w with ⟨hlossy, -⟩ | ⟨hlossy, hmoves⟩
  · obtain ⟨-, -, hden⟩ := adjust_lossy raise (s := s) hlossy
    rw [hden] at h
    exact absurd h (Nat.not_lt.mpr (Nat.le_max_left _ _))
  obtain ⟨hsame, hcount⟩ := s.countStable_cases
  have hlast : 5 ≤ s.countStable.stableWindows → 4 ≤ (init.run raise ws).stableWindows := by
    rw [hs]
    omega
  generalize hnext : s.adjust raise w = s' at h hmoves
  cases hmoves with
  | up htop hnew =>
    rw [hsame] at htop
    dsimp only at h
    omega
  | stay htop hdue =>
    rw [hsame] at h
    exact absurd h (Nat.lt_irrefl _)
  | down htop hdue hnew =>
    refine ⟨?_, ?_, hlossy, hstable.last (hlast hdue.1)⟩
    · rw [hs, hnext, ← hsame]
      exact hnew
    · rw [hs, hnext]
      dsimp only
      rw [hnew]
      exact Nat.lt_of_lt_of_le hdue.2 (Nat.le_max_left _ _)

end AdaptiveSampler

/-- The denominator stays in its band and above the unsafe floor, or at the cap with it; a
lossy window never lowers it; and it is lowered by halving only, after five stable windows. -/
theorem sampler_band (raise : Raised) (memoryLimit : UInt64) (ws : List Window)
    (w : Window) :
    let init := newAdaptiveSampler memoryLimit
    let s := init.run raise ws
    let s' := s.adjust raise w
    (1 ≤ s'.den.toNat ∧ s'.den.toNat ≤ 2 ^ 20) ∧
      (s'.unsafeDen.toNat < s'.den.toNat ∨
        s'.den.toNat = 2 ^ 20 ∧ s'.unsafeDen.toNat = 2 ^ 20) ∧
      (w.lossy = true → s.den.toNat ≤ s'.den.toNat) ∧
      (s'.den.toNat < s.den.toNat → AdaptiveSampler.Lowers raise init ws w) := by
  intro init s s'
  have hband : s.InBand := AdaptiveSampler.run_inBand raise
    (AdaptiveSampler.newAdaptiveSampler_inBand memoryLimit) ws
  obtain ⟨hlow, hhigh, habove, -⟩ := AdaptiveSampler.adjust_inBand raise hband w
  refine ⟨⟨hlow, hhigh⟩, habove, fun hlossy => ?_, AdaptiveSampler.adjust_lowers raise rfl ws w⟩
  rw [(AdaptiveSampler.adjust_lossy raise hlossy).2.2]
  exact Nat.le_max_left _ _

end GoFtrace.Sampler
