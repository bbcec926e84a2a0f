import GoFtrace.Sampler.Loss

/-!
# More pressure

Two windows compared from one state of the adaptive sampler, the second with at least the
heap and the loss of the first.

* `pressure_mono`: the denominator does not fall with the pressure, except between the band
  that holds it and a band above.
-/

namespace GoFtrace.Sampler

/-! ## The heap bands -/

theorem percent_toNat (v : UInt64) {p : UInt64} (hp : p.toNat ≤ 100) :
    (percent v p).toNat = v.toNat * p.toNat / 100 := by
  have hv := v.toNat_lt
  have hdiv : v.toNat / 100 * p.toNat ≤ v.toNat / 100 * 100 := Nat.mul_le_mul_left _ hp
  have hmod : v.toNat % 100 * p.toNat ≤ v.toNat % 100 * 100 := Nat.mul_le_mul_left _ hp
  have hsplit : v.toNat * p.toNat = 100 * (v.toNat / 100 * p.toNat) + v.toNat % 100 * p.toNat := by
    conv_lhs => rw [← Nat.div_add_mod v.toNat 100]
    ring
  unfold percent
  rw [UInt64.toNat_add, UInt64.toNat_mul, UInt64.toNat_div, UInt64.toNat_div, UInt64.toNat_mul,
    UInt64.toNat_mod]
  change (v.toNat / 100 * p.toNat % 2 ^ 64 + v.toNat % 100 * p.toNat % 2 ^ 64 / 100) % 2 ^ 64 = _
  rw [hsplit, Nat.mod_eq_of_lt (by omega), Nat.mod_eq_of_lt (by omega), Nat.mod_eq_of_lt (by omega)]
  omega

theorem Window.lossy_mono {w₁ w₂ : Window} (h : w₁.lossRate ≤ w₂.lossRate)
    (hlossy : w₁.lossy = true) : w₂.lossy = true :=
  decide_eq_true (lt_of_lt_of_le (of_decide_eq_true hlossy) h)

namespace AdaptiveSampler

/-- The heap is in the band that holds the denominator. -/
def Holds (s : AdaptiveSampler) (heapAlloc : UInt64) : Prop :=
  percent s.memoryLimit 45 < heapAlloc ∧ heapAlloc < percent s.memoryLimit 70

theorem percent_le (s : AdaptiveSampler) :
    (percent s.memoryLimit 45).toNat ≤ (percent s.memoryLimit 70).toNat ∧
      (percent s.memoryLimit 70).toNat ≤ (percent s.memoryLimit 85).toNat ∧
      (percent s.memoryLimit 85).toNat ≤ s.memoryLimit.toNat := by
  rw [percent_toNat _ (by decide), percent_toNat _ (by decide), percent_toNat _ (by decide)]
  change s.memoryLimit.toNat * 45 / 100 ≤ s.memoryLimit.toNat * 70 / 100 ∧
    s.memoryLimit.toNat * 70 / 100 ≤ s.memoryLimit.toNat * 85 / 100 ∧
    s.memoryLimit.toNat * 85 / 100 ≤ s.memoryLimit.toNat
  omega

/-- The bands of the heap, from the top. -/
theorem heapTarget_bands (s : AdaptiveSampler) (h : UInt64) :
    (s.memoryLimit.toNat ≤ h.toNat ∧ (s.heapTarget h).toNat = 1048576) ∨
      (h.toNat < s.memoryLimit.toNat ∧ (percent s.memoryLimit 85).toNat ≤ h.toNat ∧
        (s.heapTarget h).toNat = 64) ∨
      (h.toNat < (percent s.memoryLimit 85).toNat ∧ (percent s.memoryLimit 70).toNat ≤ h.toNat ∧
        (s.heapTarget h).toNat = 8) ∨
      (h.toNat < (percent s.memoryLimit 70).toNat ∧ (percent s.memoryLimit 45).toNat < h.toNat ∧
        (s.heapTarget h).toNat = s.den.toNat) ∨
      (h.toNat < (percent s.memoryLimit 70).toNat ∧ h.toNat ≤ (percent s.memoryLimit 45).toNat ∧
        (s.heapTarget h).toNat = 1) := by
  unfold heapTarget
  simp only [UInt64.le_iff_toNat_le, UInt64.lt_iff_toNat_lt]
  split
  · exact .inl ⟨by assumption, rfl⟩
  split
  · exact .inr (.inl ⟨by omega, by assumption, rfl⟩)
  split
  · exact .inr (.inr (.inl ⟨by omega, by assumption, rfl⟩))
  split
  · exact .inr (.inr (.inr (.inl ⟨by omega, by assumption, rfl⟩)))
  · exact .inr (.inr (.inr (.inr ⟨by omega, by omega, rfl⟩)))

/-- A larger heap has a larger target, unless the smaller one holds the denominator. -/
theorem heapTarget_mono {s : AdaptiveSampler} (hs : s.InBand) {h₁ h₂ : UInt64} (h : h₁ ≤ h₂) :
    (s.heapTarget h₁).toNat ≤ (s.heapTarget h₂).toNat ∨
      s.Holds h₁ ∧ (s.heapTarget h₁).toNat = s.den.toNat ∧
        (s.heapTarget h₂).toNat < s.den.toNat := by
  have hle := UInt64.le_iff_toNat_le.mp h
  obtain ⟨hp, hq, hr⟩ := s.percent_le
  have hlow := hs.low
  have hhigh := hs.high
  unfold Holds
  simp only [UInt64.lt_iff_toNat_lt]
  have h₁b := s.heapTarget_bands h₁
  have h₂b := s.heapTarget_bands h₂
  generalize (s.heapTarget h₁).toNat = T₁ at *
  generalize (s.heapTarget h₂).toNat = T₂ at *
  generalize s.den.toNat = D at *
  omega

/-! ## Two windows -/

/-- A step is monotone in its target. -/
theorem Moves.mono {s s₁ s₂ : AdaptiveSampler} {t₁ t₂ : Nat} (h₁ : Moves s t₁ s₁)
    (h₂ : Moves s t₂ s₂) (h : t₁ ≤ t₂) : s₁.den.toNat ≤ s₂.den.toNat := by
  cases h₁ with
  | up htop₁ hden₁ =>
    cases h₂ with
    | up htop₂ hden₂ => exact (hden₁.trans_le h).trans hden₂.symm.le
    | down htop₂ hdue₂ hden₂ => omega
    | stay htop₂ hdue₂ => omega
  | down htop₁ hdue₁ hden₁ =>
    cases h₂ with
    | up htop₂ hden₂ => dsimp only; omega
    | down htop₂ hdue₂ hden₂ => dsimp only; omega
    | stay htop₂ hdue₂ =>
      dsimp only
      omega
  | stay htop₁ hdue₁ =>
    cases h₂ with
    | up htop₂ hden₂ => dsimp only; omega
    | down htop₂ hdue₂ hden₂ => exact absurd hdue₂ (hdue₁ (by omega))
    | stay htop₂ hdue₂ => exact Nat.le_refl _

/-- A step ends at its target or below. -/
theorem Moves.den_le {s s' : AdaptiveSampler} {target : Nat} (h : Moves s target s') :
    s'.den.toNat ≤ max s.den.toNat target := by
  cases h with
  | up htop hden => exact hden.le.trans (Nat.le_max_right _ _)
  | down htop hdue hden =>
    rw [hden]
    exact max_le_max_right _ (Nat.div_le_self _ _)
  | stay htop hdue => exact Nat.le_max_left _ _

/-- A step towards the current denominator stays. -/
theorem Moves.den_eq {s s' : AdaptiveSampler} (h : Moves s s.den.toNat s') : s'.den = s.den := by
  cases h with
  | up htop hden => exact absurd htop (Nat.lt_irrefl _)
  | down htop hdue hden => exact absurd htop (Nat.lt_irrefl _)
  | stay htop hdue => rfl

/-- The first window holds the denominator, and the second is due to recover towards the
target of a band above. -/
structure Crosses (s : AdaptiveSampler) (w₁ w₂ : Window) : Prop where
  quiet : w₂.lossy = false
  due : s.countStable.Due
  hold : s.Holds w₁.heapAlloc
  target : (s.heapTarget w₂.heapAlloc).toNat < s.den.toNat

theorem adjust_quiet (raise : Raised) {s : AdaptiveSampler} {w : Window}
    (hquiet : w.lossy = false) :
    Moves s.countStable (s.heapTarget w.heapAlloc).toNat (s.adjust raise w) := by
  rcases s.adjust_cases raise w with ⟨hlossy, -⟩ | ⟨-, hmoves⟩
  · rw [hquiet] at hlossy
    cases hlossy
  · exact hmoves

/-- Windows without loss. -/
theorem adjust_quiet_mono (raise : Raised) {s : AdaptiveSampler} (hs : s.InBand) {w₁ w₂ : Window}
    (hheap : w₁.heapAlloc ≤ w₂.heapAlloc) (hquiet₁ : w₁.lossy = false)
    (hquiet₂ : w₂.lossy = false) (hcross : ¬ s.Crosses w₁ w₂) :
    (s.adjust raise w₁).den.toNat ≤ (s.adjust raise w₂).den.toNat := by
  have hden := s.countStable_cases.1
  have hmoves₁ := adjust_quiet raise (s := s) hquiet₁
  have hmoves₂ := adjust_quiet raise (s := s) hquiet₂
  rcases heapTarget_mono hs hheap with hle | ⟨hhold, hsame, hbelow⟩
  · exact hmoves₁.mono hmoves₂ hle
  · rw [hsame, ← hden] at hmoves₁
    rw [hmoves₁.den_eq]
    have hnot : ¬ s.countStable.Due := fun hdue => hcross ⟨hquiet₂, hdue, hhold, hbelow⟩
    generalize s.adjust raise w₂ = s₂ at hmoves₂
    cases hmoves₂ with
    | up htop hnew => exact absurd (hden ▸ htop) (Nat.lt_asymm hbelow)
    | down htop hdue hnew => exact absurd hdue hnot
    | stay htop hdue => exact Nat.le_refl _

/-- The target of the band that holds the denominator. -/
theorem Holds.heapTarget_eq {s : AdaptiveSampler} {h : UInt64} (hold : s.Holds h) :
    (s.heapTarget h).toNat = s.den.toNat := by
  obtain ⟨hp, hq, hr⟩ := s.percent_le
  obtain ⟨habove, hbelow⟩ := hold
  rw [UInt64.lt_iff_toNat_lt] at habove hbelow
  rcases s.heapTarget_bands h with ⟨hband, -⟩ | ⟨-, hband, -⟩ | ⟨-, hband, -⟩ |
    ⟨-, -, htarget⟩ | ⟨-, hband, -⟩
  · omega
  · omega
  · omega
  · exact htarget
  · omega

/-- What the two windows of a crossing do. -/
theorem Crosses.den_eq (raise : Raised) {s : AdaptiveSampler} {w₁ w₂ : Window}
    (hloss : w₁.lossRate ≤ w₂.lossRate) (h : s.Crosses w₁ w₂) :
    (s.adjust raise w₁).den = s.den ∧
      (s.adjust raise w₂).den.toNat =
        max (s.den.toNat / 2) (s.heapTarget w₂.heapAlloc).toNat := by
  have hden := s.countStable_cases.1
  have hquiet₁ : w₁.lossy = false := by
    rw [Bool.eq_false_iff]
    intro hlossy
    exact absurd (Window.lossy_mono hloss hlossy) (Bool.eq_false_iff.mp h.quiet)
  constructor
  · have hmoves := adjust_quiet raise (s := s) hquiet₁
    rw [h.hold.heapTarget_eq, ← hden] at hmoves
    rw [hmoves.den_eq, hden]
  · have hmoves := adjust_quiet raise (s := s) h.quiet
    have hbelow := h.target
    generalize s.adjust raise w₂ = s₂ at hmoves
    cases hmoves with
    | up htop hnew => exact absurd (hden ▸ htop) (Nat.lt_asymm hbelow)
    | down htop hdue hnew =>
      rw [hden] at hnew
      exact hnew
    | stay htop hdue => exact absurd h.due (hdue (hden.symm ▸ hbelow))

/-- From one state, more pressure never means a smaller denominator, unless the windows
cross. -/
theorem adjust_mono {toUint32 : ToUint32} (hconv : Converts toUint32) {s : AdaptiveSampler}
    (hs : s.InBand) {w₁ w₂ : Window} (hheap : w₁.heapAlloc ≤ w₂.heapAlloc)
    (hloss : w₁.lossRate ≤ w₂.lossRate) (hone : w₂.lossRate < 1)
    (hfits : raisedCeil s.den w₂.lossRate < ((2 ^ 32 : ℤ) : WithTop ℤ))
    (hcross : ¬ s.Crosses w₁ w₂) :
    (s.adjust (exactly toUint32) w₁).den.toNat ≤ (s.adjust (exactly toUint32) w₂).den.toNat := by
  cases hlossy₂ : w₂.lossy with
  | false =>
    refine adjust_quiet_mono _ hs hheap ?_ hlossy₂ hcross
    rw [Bool.eq_false_iff]
    intro hlossy₁
    exact absurd (Window.lossy_mono hloss hlossy₁) (Bool.eq_false_iff.mp hlossy₂)
  | true =>
    have hden₂ := (adjust_lossy (exactly toUint32) (s := s) hlossy₂).2.2
    have htarget : (s.heapTarget w₁.heapAlloc).toNat ≤
        max s.den.toNat (s.heapTarget w₂.heapAlloc).toNat := by
      rcases heapTarget_mono hs hheap with hle | ⟨-, hsame, -⟩
      · exact hle.trans (Nat.le_max_right _ _)
      · exact hsame.le.trans (Nat.le_max_left _ _)
    rw [hden₂]
    cases hlossy₁ : w₁.lossy with
    | false =>
      have hle := (adjust_quiet (exactly toUint32) (s := s) hlossy₁).den_le
      rw [s.countStable_cases.1] at hle
      refine hle.trans (max_le (Nat.le_max_left _ _) (htarget.trans ?_))
      exact max_le_max_left _ (Nat.le_max_left _ _)
    | true =>
      rw [(adjust_lossy (exactly toUint32) (s := s) hlossy₁).2.2]
      have hraised := lossRaised_mono hconv hs.high hloss hone hfits
      refine max_le (Nat.le_max_left _ _) (max_le (htarget.trans ?_) (hraised.trans ?_))
      · exact max_le_max_left _ (Nat.le_max_left _ _)
      · exact (Nat.le_max_right _ _).trans (Nat.le_max_right _ _)

end AdaptiveSampler

open AdaptiveSampler

/-- More pressure never means less sampling reduction, unless the first window holds the
denominator and the second is due to recover towards the target of its own band. -/
theorem pressure_mono {toUint32 : ToUint32} (hconv : Converts toUint32) (memoryLimit : UInt64)
    (ws : List Window) {w₁ w₂ : Window} (hheap : w₁.heapAlloc ≤ w₂.heapAlloc)
    (hloss : w₁.lossRate ≤ w₂.lossRate) (hone : w₂.lossRate < 1) :
    let s := (newAdaptiveSampler memoryLimit).run (exactly toUint32) ws
    raisedCeil s.den w₂.lossRate < ((2 ^ 32 : ℤ) : WithTop ℤ) →
      (¬ s.Crosses w₁ w₂ →
        (s.adjust (exactly toUint32) w₁).den ≤ (s.adjust (exactly toUint32) w₂).den) ∧
      (s.Crosses w₁ w₂ →
        (s.adjust (exactly toUint32) w₁).den = s.den ∧
        (s.adjust (exactly toUint32) w₂).den.toNat =
          max (s.den.toNat / 2) (s.heapTarget w₂.heapAlloc).toNat) := by
  intro s hfits
  have hband : s.InBand := run_inBand _ (newAdaptiveSampler_inBand memoryLimit) ws
  exact ⟨fun hcross => UInt32.le_iff_toNat_le.mpr
    (adjust_mono hconv hband hheap hloss hone hfits hcross), Crosses.den_eq _ hloss⟩

/-- Two windows at the denominator 64, with 72% of the heap and then more and a loss. -/
theorem pressure_mono_lossy :
    let s := (newAdaptiveSampler 1048576).run (exactly truncateInt64) [⟨900000, 0⟩]
    (s.adjust (exactly truncateInt64) ⟨750000, 0⟩).den ≤
      (s.adjust (exactly truncateInt64) ⟨800000, 1 / 2⟩).den := by
  intro s
  have hden : s.den = 64 := by decide +kernel
  have hmono := @pressure_mono _ truncateInt64_converts 1048576 [⟨900000, 0⟩]
    ⟨750000, 0⟩ ⟨800000, 1 / 2⟩ (by decide) (by norm_num) (by norm_num)
    (by
      rw [hden, raisedCeil_of_lt (by norm_num)]
      exact WithTop.coe_lt_coe.mpr (by decide +kernel))
  exact hmono.1 fun h => absurd h.quiet (by decide +kernel)

/-- A heap of 600000 bytes holds the denominator 64, and one of 750000 bytes halves it. -/
theorem pressure_crosses :
    let s := (newAdaptiveSampler 1048576).run (exactly truncateInt64)
      [⟨900000, 0⟩, ⟨600000, 0⟩, ⟨600000, 0⟩, ⟨600000, 0⟩, ⟨600000, 0⟩]
    (s.adjust (exactly truncateInt64) ⟨750000, 0⟩).den <
      (s.adjust (exactly truncateInt64) ⟨600000, 0⟩).den := by
  decide +kernel

end GoFtrace.Sampler
