import GoFtrace.Sampler.Adaptive
import Mathlib.Data.Rat.Floor
import Mathlib.Order.WithBot
import Mathlib.Tactic.FieldSimp
import Mathlib.Tactic.Linarith

/-!
# The jump of a lossy window

`lossRateSince` of `cmd/tracer.go` and `lossRaisedDenominator` of `cmd/sampler.go` in exact
arithmetic. What `uint32(f)` gives for a float that no `uint32` represents is up to the
implementation of Go; it is a parameter here.

* `jump_inRange_iff`: when the jump is computed inside its arithmetic range.
-/

namespace GoFtrace.Sampler

/-! ## The value before the clamps -/

/-- `uint32(f)` of a float with an integral value; `⊤` is the infinity. -/
abbrev ToUint32 := WithTop ℤ → UInt32

/-- `float64(current)*lossSafetyFactor/(1-lossRate) - 1e-9`. -/
def raisedQuotient (current : UInt32) (lossRate : ℚ) : ℚ :=
  (current.toNat : ℚ) * lossSafetyFactor / (1 - lossRate) - 1 / 1000000000

/-- The rounded quotient: the infinity when the divisor is zero. -/
def raisedCeil (current : UInt32) (lossRate : ℚ) : WithTop ℤ :=
  if lossRate = 1 then ⊤ else (⌈raisedQuotient current lossRate⌉ : ℤ)

/-- The computation without rounding. -/
def exactly (toUint32 : ToUint32) : Raised := fun current lossRate =>
  toUint32 (raisedCeil current lossRate)

/-- A conversion keeps the values that a `uint32` represents. -/
def Converts (toUint32 : ToUint32) : Prop :=
  ∀ n : Nat, n < 2 ^ 32 → (toUint32 (n : ℤ)).toNat = n

/-- The conversion of amd64: the low half of a 64-bit integer, zero for what overflows it. -/
def truncateInt64 : ToUint32
  | ⊤ => 0
  | (z : ℤ) => if -2 ^ 63 ≤ z ∧ z < 2 ^ 63 then UInt32.ofInt z else 0

theorem truncateInt64_coe (z : ℤ) : truncateInt64 z =
    if -2 ^ 63 ≤ z ∧ z < 2 ^ 63 then UInt32.ofInt z else 0 := rfl

theorem truncateInt64_converts : Converts truncateInt64 := by
  intro n hn
  have hrange : -2 ^ 63 ≤ (n : ℤ) ∧ (n : ℤ) < 2 ^ 63 := by omega
  have hnat : UInt32.ofInt n = UInt32.ofNat n := by
    unfold UInt32.ofInt
    congr 1
    omega
  rw [truncateInt64_coe, if_pos hrange, hnat]
  exact UInt32.toNat_ofNat_of_lt' hn

theorem raisedQuotient_mono {current : UInt32} {p q : ℚ} (h : p ≤ q) (hq : q < 1) :
    raisedQuotient current p ≤ raisedQuotient current q := by
  unfold raisedQuotient lossSafetyFactor
  have hdivisor : 0 < 1 - q := sub_pos.mpr hq
  have hnum : (0 : ℚ) ≤ current.toNat * (3 / 2) := by positivity
  have hdiv := div_le_div_of_nonneg_left hnum hdivisor (sub_le_sub_left h 1)
  linarith

theorem raisedQuotient_above {current : UInt32} {p : ℚ} (hp : p < 1) :
    -1 < raisedQuotient current p := by
  unfold raisedQuotient lossSafetyFactor
  have hdivisor : 0 < 1 - p := sub_pos.mpr hp
  have hquot : (0 : ℚ) ≤ current.toNat * (3 / 2) / (1 - p) := by positivity
  linarith

theorem raisedCeil_of_lt {current : UInt32} {p : ℚ} (hp : p < 1) :
    raisedCeil current p = (⌈raisedQuotient current p⌉₊ : ℤ) := by
  unfold raisedCeil
  rw [if_neg hp.ne, Int.natCast_ceil_eq_ceil_of_neg_one_lt (raisedQuotient_above hp)]

/-- Below `2 ^ 32`, the conversion keeps the rounded quotient. -/
theorem exactly_toNat {toUint32 : ToUint32} (hconv : Converts toUint32) {current : UInt32} {p : ℚ}
    (hp : p < 1) (hvalue : raisedCeil current p < ((2 ^ 32 : ℤ) : WithTop ℤ)) :
    (exactly toUint32 current p).toNat = ⌈raisedQuotient current p⌉₊ := by
  unfold exactly
  rw [raisedCeil_of_lt hp] at hvalue ⊢
  refine hconv _ ?_
  have hlt := WithTop.coe_lt_coe.mp hvalue
  omega

/-- A heavier loss never asks for a smaller jump, as long as the quotient fits. -/
theorem lossRaised_mono {toUint32 : ToUint32} (hconv : Converts toUint32) {current : UInt32}
    (hhigh : current.toNat ≤ 1048576) {p q : ℚ} (h : p ≤ q) (hq : q < 1)
    (hvalue : raisedCeil current q < ((2 ^ 32 : ℤ) : WithTop ℤ)) :
    (lossRaisedDenominator (exactly toUint32) current p).toNat ≤
      (lossRaisedDenominator (exactly toUint32) current q).toNat := by
  have hp : p < 1 := lt_of_le_of_lt h hq
  have hceil : ⌈raisedQuotient current p⌉₊ ≤ ⌈raisedQuotient current q⌉₊ :=
    Nat.ceil_le_ceil (raisedQuotient_mono h hq)
  have hless : raisedCeil current p < ((2 ^ 32 : ℤ) : WithTop ℤ) := by
    refine lt_of_le_of_lt ?_ hvalue
    rw [raisedCeil_of_lt hp, raisedCeil_of_lt hq]
    exact WithTop.coe_le_coe.mpr (Int.ofNat_le.mpr hceil)
  rw [AdaptiveSampler.lossRaised_toNat _ hhigh, AdaptiveSampler.lossRaised_toNat _ hhigh,
    exactly_toNat hconv hp hless, exactly_toNat hconv hq hvalue]
  exact min_le_min_left _ (max_le_max_left _ hceil)

/-! ## The loss rate of a window -/

/-- The cumulative counters that `lossRateSince` reads and remembers. -/
structure Counters where
  emitted : UInt64
  dropped : UInt64
  deriving DecidableEq, Repr

/-- The counters of one window. -/
def Counters.since (stats last : Counters) : Counters :=
  { emitted := stats.emitted - last.emitted, dropped := stats.dropped - last.dropped }

/-- `lossRateSince`: the loss rate of the window and the counters to remember. -/
def lossRateSince (last stats : Counters) : ℚ × Counters :=
  let window := stats.since last
  let total := window.emitted + window.dropped
  (if total = 0 then 0 else (window.dropped.toNat : ℚ) / total.toNat, stats)

/-! ## The jump -/

/-- `1.5 * current * (emitted + dropped) / emitted - 1e-9`. -/
def jumpQuotient (current : UInt32) (window : Counters) : ℚ :=
  3 / 2 * (current.toNat : ℚ) * (window.emitted.toNat + window.dropped.toNat) /
    window.emitted.toNat - 1 / 1000000000

/-- The denominator a lossy window should jump to, from its counters. -/
def expectedJump (current : UInt32) (window : Counters) : Nat :=
  if window.emitted.toNat = 0 then 2 ^ 20
  else min (2 ^ 20) (max (current.toNat + 1) ⌈jumpQuotient current window⌉₊)

/-- The jump is computed inside its arithmetic range: the divisor is positive, the value
that becomes a `uint32` is below `2 ^ 32`, and the result is the expected one. -/
structure JumpInRange (toUint32 : ToUint32) (current : UInt32) (window : Counters)
    (lossRate : ℚ) : Prop where
  divisor : 0 < 1 - lossRate
  value : raisedCeil current lossRate < ((2 ^ 32 : ℤ) : WithTop ℤ)
  jump : (lossRaisedDenominator (exactly toUint32) current lossRate).toNat =
    expectedJump current window

/-- The counters of the window bound the loss: their sum does not wrap, and enough of its
events were emitted for the quotient to stay below `2 ^ 32`. -/
def FitsJump (current : UInt32) (window : Counters) : Prop :=
  window.emitted.toNat + window.dropped.toNat < 2 ^ 64 ∧
    3 * 1000000000 * current.toNat * (window.emitted.toNat + window.dropped.toNat) ≤
      2 * ((2 ^ 32 - 1) * 1000000000 + 1) * window.emitted.toNat

instance (current : UInt32) (window : Counters) : Decidable (FitsJump current window) := by
  unfold FitsJump; infer_instance

/-- A sum that does not wrap makes the divisor the share of the emitted events. -/
theorem lossRateSince_divisor {last stats : Counters}
    (hwrap : (stats.since last).emitted.toNat + (stats.since last).dropped.toNat < 2 ^ 64)
    (hlossy : 0 < (lossRateSince last stats).1) :
    1 - (lossRateSince last stats).1 = (stats.since last).emitted.toNat /
      ((stats.since last).emitted.toNat + (stats.since last).dropped.toNat) := by
  unfold lossRateSince at hlossy ⊢
  dsimp only at hlossy ⊢
  generalize stats.since last = window at hwrap hlossy
  have htotal : (window.emitted + window.dropped).toNat =
      window.emitted.toNat + window.dropped.toNat := by
    rw [UInt64.toNat_add]
    exact Nat.mod_eq_of_lt hwrap
  split at hlossy
  · exact absurd hlossy (lt_irrefl _)
  · rename_i hzero
    rw [if_neg hzero, htotal]
    have hpos : (0 : ℚ) < window.emitted.toNat + window.dropped.toNat := by
      have hne : window.emitted.toNat + window.dropped.toNat ≠ 0 := by
        intro hsum
        exact hzero (UInt64.toNat_inj.mp (by rw [htotal, hsum]; rfl))
      exact_mod_cast Nat.pos_of_ne_zero hne
    push_cast
    field_simp
    ring

theorem lossRateSince_dropped {last stats : Counters} (hlossy : 0 < (lossRateSince last stats).1) :
    0 < (stats.since last).dropped.toNat := by
  refine Nat.pos_of_ne_zero fun hzero => ?_
  unfold lossRateSince at hlossy
  dsimp only at hlossy
  rw [hzero, Nat.cast_zero, zero_div, ite_self] at hlossy
  exact lt_irrefl _ hlossy

/-- A sum that wraps makes the loss rate exceed one, unless it reports no loss. -/
theorem lossRateSince_wrapped {last stats : Counters}
    (hwrap : ¬ (stats.since last).emitted.toNat + (stats.since last).dropped.toNat < 2 ^ 64)
    (hlossy : 0 < (lossRateSince last stats).1) : 1 < (lossRateSince last stats).1 := by
  unfold lossRateSince at hlossy ⊢
  dsimp only at hlossy ⊢
  generalize stats.since last = window at hwrap hlossy
  split at hlossy
  · exact absurd hlossy (lt_irrefl _)
  · rename_i hzero
    rw [if_neg hzero]
    have hlt : (window.emitted + window.dropped).toNat < window.dropped.toNat := by
      have hemitted := window.emitted.toNat_lt
      have hdropped := window.dropped.toNat_lt
      rw [UInt64.toNat_add]
      omega
    have hpos : (0 : ℚ) < (window.emitted + window.dropped).toNat := by
      have hne : (window.emitted + window.dropped).toNat ≠ 0 := fun h =>
        hzero (UInt64.toNat_inj.mp h)
      exact_mod_cast Nat.pos_of_ne_zero hne
    rw [lt_div_iff₀ hpos, one_mul]
    exact_mod_cast hlt

/-- The quotient of the code is that of the counters. -/
theorem raisedQuotient_eq {current : UInt32} {last stats : Counters}
    (hwrap : (stats.since last).emitted.toNat + (stats.since last).dropped.toNat < 2 ^ 64)
    (hlossy : 0 < (lossRateSince last stats).1) (hemitted : 0 < (stats.since last).emitted.toNat) :
    raisedQuotient current (lossRateSince last stats).1 =
      jumpQuotient current (stats.since last) := by
  have hpos : (0 : ℚ) < (stats.since last).emitted.toNat := by exact_mod_cast hemitted
  unfold raisedQuotient jumpQuotient lossSafetyFactor
  rw [lossRateSince_divisor hwrap hlossy]
  field_simp

/-- Some emitted event keeps the loss rate below one. -/
theorem lossRateSince_lt_one {last stats : Counters}
    (hwrap : (stats.since last).emitted.toNat + (stats.since last).dropped.toNat < 2 ^ 64)
    (hlossy : 0 < (lossRateSince last stats).1) :
    (lossRateSince last stats).1 < 1 ↔ 0 < (stats.since last).emitted.toNat := by
  have hdivisor := lossRateSince_divisor hwrap hlossy
  rw [← sub_pos, hdivisor]
  constructor
  · intro h
    refine Nat.pos_of_ne_zero fun hzero => ?_
    rw [hzero, Nat.cast_zero, zero_div] at h
    exact lt_irrefl _ h
  · intro h
    have hpos : (0 : ℚ) < (stats.since last).emitted.toNat := by exact_mod_cast h
    positivity

/-- The bound of `FitsJump` is one on the rounded quotient. -/
theorem ceil_jumpQuotient_lt {current : UInt32} {window : Counters}
    (hemitted : 0 < window.emitted.toNat) :
    ⌈jumpQuotient current window⌉₊ < 2 ^ 32 ↔
      3 * 1000000000 * current.toNat * (window.emitted.toNat + window.dropped.toNat) ≤
        2 * ((2 ^ 32 - 1) * 1000000000 + 1) * window.emitted.toNat := by
  have hpos : (0 : ℚ) < window.emitted.toNat := by exact_mod_cast hemitted
  have hle : ⌈jumpQuotient current window⌉₊ < 2 ^ 32 ↔
      ⌈jumpQuotient current window⌉₊ ≤ 2 ^ 32 - 1 := by omega
  rw [hle, Nat.ceil_le]
  unfold jumpQuotient
  rw [sub_le_iff_le_add, div_le_iff₀ hpos]
  rw [← @Nat.cast_le ℚ]
  push_cast
  constructor
  · intro h
    linarith
  · intro h
    linarith

/-- A lossy window jumps inside the arithmetic range exactly when its counters fit. -/
theorem jumpInRange_iff {toUint32 : ToUint32} (hconv : Converts toUint32) {current : UInt32}
    (hlow : 1 ≤ current.toNat) (hhigh : current.toNat ≤ 1048576) {last stats : Counters}
    (hlossy : 0 < (lossRateSince last stats).1) :
    JumpInRange toUint32 current (stats.since last) (lossRateSince last stats).1 ↔
      FitsJump current (stats.since last) := by
  by_cases hwrap : (stats.since last).emitted.toNat + (stats.since last).dropped.toNat < 2 ^ 64
  · have hone := lossRateSince_lt_one hwrap hlossy
    by_cases hemitted : 0 < (stats.since last).emitted.toNat
    · have hrate := hone.mpr hemitted
      have hfit : raisedCeil current (lossRateSince last stats).1 <
          ((2 ^ 32 : ℤ) : WithTop ℤ) ↔ FitsJump current (stats.since last) := by
        unfold FitsJump
        rw [raisedCeil_of_lt hrate, WithTop.coe_lt_coe, raisedQuotient_eq hwrap hlossy hemitted,
          ← ceil_jumpQuotient_lt hemitted]
        constructor
        · intro h
          exact ⟨hwrap, by omega⟩
        · rintro ⟨-, h⟩
          omega
      refine ⟨fun h => hfit.mp h.value, fun h => ⟨sub_pos.mpr hrate, hfit.mpr h, ?_⟩⟩
      rw [AdaptiveSampler.lossRaised_toNat _ hhigh, exactly_toNat hconv hrate (hfit.mpr h),
        raisedQuotient_eq hwrap hlossy hemitted, expectedJump, if_neg hemitted.ne']
      rfl
    · constructor
      · intro h
        exact absurd (hone.mp (sub_pos.mp h.divisor)) hemitted
      · rintro ⟨-, h⟩
        have hzero := Nat.eq_zero_of_not_pos hemitted
        have hdropped := lossRateSince_dropped hlossy
        rw [hzero, Nat.zero_add, Nat.mul_zero] at h
        exact absurd (Nat.le_zero.mp h) (by positivity)
  · constructor
    · intro h
      exact absurd (sub_pos.mp h.divisor) (lt_asymm (lossRateSince_wrapped hwrap hlossy))
    · intro h
      exact absurd h.1 hwrap

theorem lossy_pos {p : ℚ} (h : lossNoiseThreshold < p) : 0 < p :=
  lt_trans (by unfold lossNoiseThreshold; norm_num) h

/-- A lossy window jumps inside the arithmetic range exactly when its counters fit, and then
a heavier loss never yields a smaller jump. -/
theorem jump_in_range {toUint32 : ToUint32} (hconv : Converts toUint32) :
    (∀ (current : UInt32) (last stats : Counters), 1 ≤ current.toNat → current.toNat ≤ 2 ^ 20 →
      lossNoiseThreshold < (lossRateSince last stats).1 →
      (JumpInRange toUint32 current (stats.since last) (lossRateSince last stats).1 ↔
        FitsJump current (stats.since last))) ∧
    ∀ (current : UInt32) (last stats last' stats' : Counters), 1 ≤ current.toNat →
      current.toNat ≤ 2 ^ 20 → lossNoiseThreshold < (lossRateSince last stats).1 →
      (lossRateSince last stats).1 ≤ (lossRateSince last' stats').1 →
      FitsJump current (stats'.since last') →
      lossRaisedDenominator (exactly toUint32) current (lossRateSince last stats).1 ≤
        lossRaisedDenominator (exactly toUint32) current (lossRateSince last' stats').1 := by
  refine ⟨fun current last stats hlow hhigh hlossy =>
    jumpInRange_iff hconv hlow hhigh (lossy_pos hlossy), ?_⟩
  intro current last stats last' stats' hlow hhigh hlossy hle hfits
  have hpos := lossy_pos (lt_of_lt_of_le hlossy hle)
  have hrange := (jumpInRange_iff hconv hlow hhigh hpos).mpr hfits
  exact UInt32.le_iff_toNat_le.mpr
    (lossRaised_mono hconv hhigh hle (sub_pos.mp hrange.divisor) hrange.value)

/-- Half of the events lost at the denominator 8. -/
theorem jump_in_range_half :
    JumpInRange truncateInt64 8 (Counters.since ⟨150, 50⟩ ⟨100, 0⟩) (1 / 2) ∧
      lossRaisedDenominator (exactly truncateInt64) 8 (lossRateSince ⟨100, 0⟩ ⟨150, 50⟩).1 ≤
        lossRaisedDenominator (exactly truncateInt64) 8 (lossRateSince ⟨100, 0⟩ ⟨120, 80⟩).1 := by
  have hhalf : (lossRateSince ⟨100, 0⟩ ⟨150, 50⟩).1 = 1 / 2 := by decide +kernel
  have hmore : (lossRateSince ⟨100, 0⟩ ⟨120, 80⟩).1 = 4 / 5 := by decide +kernel
  have hlossy : lossNoiseThreshold < 1 / 2 := by unfold lossNoiseThreshold; norm_num
  obtain ⟨hiff, hmono⟩ := jump_in_range truncateInt64_converts
  constructor
  · rw [← hhalf]
    exact (hiff 8 _ _ (by decide) (by decide) (by rw [hhalf]; exact hlossy)).mpr (by decide)
  · exact hmono 8 _ _ _ _ (by decide) (by decide) (by rw [hhalf]; exact hlossy)
      (by rw [hhalf, hmore]; norm_num) (by decide)

/-- A window whose events were all dropped divides by zero: on amd64 the jump is one step
instead of the cap. -/
theorem jump_all_dropped :
    lossRaisedDenominator (exactly truncateInt64) 1 (lossRateSince ⟨0, 0⟩ ⟨0, 1⟩).1 = 2 ∧
      expectedJump 1 (Counters.since ⟨0, 1⟩ ⟨0, 0⟩) = 2 ^ 20 ∧
      ¬ JumpInRange truncateInt64 1 (Counters.since ⟨0, 1⟩ ⟨0, 0⟩)
        (lossRateSince ⟨0, 0⟩ ⟨0, 1⟩).1 := by
  have hone : (lossRateSince ⟨0, 0⟩ ⟨0, 1⟩).1 = 1 := by decide +kernel
  rw [hone]
  refine ⟨by decide, by decide, fun h => ?_⟩
  have hdivisor := h.divisor
  rw [sub_self] at hdivisor
  exact lt_irrefl _ hdivisor

end GoFtrace.Sampler
