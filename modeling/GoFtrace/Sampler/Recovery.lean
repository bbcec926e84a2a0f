import GoFtrace.Sampler.Pressure

/-!
# Recovery of the full collection

Calm windows: no loss, and a heap that asks for the denominator 1.

* `fully_recovers`: they bring the denominator down to 1, in a number of windows bounded by
  the state, and it stays there.
-/

namespace GoFtrace.Sampler

/-! ## Calm windows -/

/-- A window without loss whose heap is at most 45% of the limit. -/
structure Calm (memoryLimit : UInt64) (w : Window) : Prop where
  heap : w.heapAlloc ≤ percent memoryLimit 45
  loss : w.lossRate = 0

/-- The windows that a state may still need: halving needs five of them and half the
denominator above the floor, and releasing the floor needs fifteen. -/
def remaining (den unsafeDen stableWindows : Nat) : Nat :=
  15 * (den + unsafeDen) +
    if 1 ≤ unsafeDen then 15 - stableWindows
    else if stableWindows ≤ 4 then 5 - stableWindows
    else if stableWindows ≤ 13 then 1
    else 6

/-- A released floor leaves less to wait for. -/
theorem remaining_release {D U k : Nat} (hk : k < 15) (hlast : 15 ≤ k + 1) :
    remaining D (U / 2) 0 < remaining D U k := by
  unfold remaining
  repeat' split
  all_goals omega

/-- So does a halved denominator. -/
theorem remaining_halve {D U k : Nat} (hD : 1 < D) (hk : k + 1 < 15) (hdue : 5 ≤ k + 1) :
    remaining (max (D / 2) 1) U 0 < remaining D U k := by
  unfold remaining
  repeat' split
  all_goals omega

/-- So does one more stable window, while recovery is not due. -/
theorem remaining_count {D U k : Nat} (hD : 1 < D) (hk : k + 1 < 15)
    (hdue : ¬ (5 ≤ k + 1 ∧ U < D / 2)) : remaining D U (k + 1) < remaining D U k := by
  unfold remaining
  repeat' split
  all_goals omega

theorem Calm.heapTarget_eq {s : AdaptiveSampler} {w : Window}
    (hlimit : 2 ^ 20 ≤ s.memoryLimit.toNat) (h : Calm s.memoryLimit w) :
    (s.heapTarget w.heapAlloc).toNat = 1 := by
  have hheap := UInt64.le_iff_toNat_le.mp h.heap
  have hband : (percent s.memoryLimit 45).toNat < (percent s.memoryLimit 70).toNat := by
    rw [percent_toNat _ (by decide), percent_toNat _ (by decide)]
    change s.memoryLimit.toNat * 45 / 100 < s.memoryLimit.toNat * 70 / 100
    omega
  obtain ⟨-, hq, hr⟩ := s.percent_le
  rcases s.heapTarget_bands w.heapAlloc with ⟨hin, -⟩ | ⟨-, hin, -⟩ | ⟨-, hin, -⟩ |
    ⟨-, hin, -⟩ | ⟨-, -, htarget⟩
  · omega
  · omega
  · omega
  · omega
  · exact htarget

theorem Calm.quiet {limit : UInt64} {w : Window} (h : Calm limit w) : w.lossy = false := by
  unfold Window.lossy lossNoiseThreshold
  rw [h.loss]
  exact decide_eq_false (by norm_num)

namespace AdaptiveSampler

/-- The windows that a sampler may still need. -/
def toRecover (s : AdaptiveSampler) : Nat :=
  remaining s.den.toNat s.unsafeDen.toNat s.stableWindows

/-- A step towards 1, from a state that has counted a stable window. -/
theorem calm_moves {s c s' : AdaptiveSampler} (hcounter : s.stableWindows < 15)
    (hden : c.den = s.den)
    (hcount : 15 ≤ s.stableWindows + 1 ∧ c.stableWindows = 0 ∧
        c.unsafeDen.toNat = s.unsafeDen.toNat / 2 ∨
      s.stableWindows + 1 < 15 ∧ c.stableWindows = s.stableWindows + 1 ∧
        c.unsafeDen = s.unsafeDen)
    (hmoves : Moves c 1 s') (hlow : 1 ≤ s.den.toNat) :
    s'.den.toNat ≤ s.den.toNat ∧ 1 ≤ s'.den.toNat ∧
      (1 < s.den.toNat → s'.toRecover < s.toRecover) := by
  unfold toRecover
  rw [← hden] at hlow ⊢
  cases hmoves with
  | up htop hnew => omega
  | down htop hdue hnew =>
    dsimp only
    rw [hnew]
    refine ⟨by omega, Nat.le_max_right _ _, fun hbig => ?_⟩
    rcases hcount with ⟨-, hzero, -⟩ | ⟨hk, hsucc, hsame⟩
    · rw [Due, hzero] at hdue
      exact absurd hdue.1 (by decide)
    · rw [hsame]
      exact remaining_halve hbig hk (hsucc ▸ hdue.1)
  | stay htop hdue =>
    refine ⟨Nat.le_refl _, hlow, fun hbig => ?_⟩
    rcases hcount with ⟨hlast, hzero, hhalf⟩ | ⟨hk, hsucc, hsame⟩
    · rw [hzero, hhalf]
      exact remaining_release hcounter hlast
    · rw [hsucc, hsame]
      refine remaining_count hbig hk fun hboth => hdue hbig ⟨hsucc ▸ hboth.1, ?_⟩
      rw [hsame]
      exact hboth.2

theorem Moves.memoryLimit_eq {s s' : AdaptiveSampler} {target : Nat} (h : Moves s target s') :
    s'.memoryLimit = s.memoryLimit := by
  cases h <;> rfl

theorem countStable_memoryLimit (s : AdaptiveSampler) :
    s.countStable.memoryLimit = s.memoryLimit := by
  unfold countStable
  split <;> rfl

theorem adjust_memoryLimit (raise : Raised) (s : AdaptiveSampler) (w : Window) :
    (s.adjust raise w).memoryLimit = s.memoryLimit := by
  rcases s.adjust_cases raise w with ⟨-, hmoves⟩ | ⟨-, hmoves⟩
  · exact hmoves.memoryLimit_eq
  · exact hmoves.memoryLimit_eq.trans s.countStable_memoryLimit

theorem run_memoryLimit (raise : Raised) (s : AdaptiveSampler) (ws : List Window) :
    (s.run raise ws).memoryLimit = s.memoryLimit := by
  induction ws generalizing s with
  | nil => rfl
  | cons w ws ih => exact (ih _).trans (s.adjust_memoryLimit raise w)

/-- What a calm window does. -/
theorem adjust_calm (raise : Raised) {s : AdaptiveSampler} (hs : s.InBand)
    (hlimit : 2 ^ 20 ≤ s.memoryLimit.toNat) {w : Window} (h : Calm s.memoryLimit w) :
    (s.adjust raise w).den.toNat ≤ s.den.toNat ∧
      (1 < s.den.toNat → (s.adjust raise w).toRecover < s.toRecover) := by
  obtain ⟨hden, hcount⟩ := s.countStable_cases
  have hmoves := adjust_quiet raise (s := s) h.quiet
  rw [h.heapTarget_eq hlimit] at hmoves
  obtain ⟨hle, -, hless⟩ := calm_moves hs.counter hden hcount hmoves hs.low
  exact ⟨hle, hless⟩

/-- Calm windows never raise the denominator. -/
theorem run_calm_le (raise : Raised) {s : AdaptiveSampler} (hs : s.InBand)
    (hlimit : 2 ^ 20 ≤ s.memoryLimit.toNat) {vs : List Window}
    (hcalm : ∀ v ∈ vs, Calm s.memoryLimit v) : (s.run raise vs).den.toNat ≤ s.den.toNat := by
  induction vs generalizing s with
  | nil => exact Nat.le_refl _
  | cons v vs ih =>
    have hsame := s.adjust_memoryLimit raise v
    refine (ih (adjust_inBand raise hs v) (by rw [hsame]; exact hlimit) ?_).trans
      (adjust_calm raise hs hlimit (hcalm v List.mem_cons_self)).1
    intro w hw
    rw [hsame]
    exact hcalm w (List.mem_cons_of_mem v hw)

/-- Enough of them bring it to 1. -/
theorem run_calm_one (raise : Raised) {s : AdaptiveSampler} (hs : s.InBand)
    (hlimit : 2 ^ 20 ≤ s.memoryLimit.toNat) {vs : List Window}
    (hcalm : ∀ v ∈ vs, Calm s.memoryLimit v) (hlen : s.toRecover ≤ vs.length) :
    (s.run raise vs).den.toNat = 1 := by
  have hlow := hs.low
  induction vs generalizing s with
  | nil =>
    have hzero : s.toRecover = 0 := Nat.le_zero.mp hlen
    unfold toRecover remaining at hzero
    generalize s.den.toNat = D at hlow hzero
    omega
  | cons v vs ih =>
    rcases Nat.lt_or_ge 1 s.den.toNat with hbig | hone
    · have hsame := s.adjust_memoryLimit raise v
      have hless := (adjust_calm raise hs hlimit (hcalm v List.mem_cons_self)).2 hbig
      have hband := adjust_inBand raise hs v
      refine ih hband (by rw [hsame]; exact hlimit) ?_ ?_ hband.low
      · intro w hw
        rw [hsame]
        exact hcalm w (List.mem_cons_of_mem v hw)
      · rw [List.length_cons] at hlen
        omega
    · exact Nat.le_antisymm ((run_calm_le raise hs hlimit hcalm).trans hone)
        (run_inBand raise hs _).low

end AdaptiveSampler

open AdaptiveSampler

/-- Full collection is regained: calm windows never raise the denominator, and after as many
as the state may still need it is 1 and stays so. -/
theorem fully_recovers (raise : Raised) {memoryLimit : UInt64} (hlimit : 2 ^ 20 ≤ memoryLimit.toNat)
    (ws : List Window) {vs : List Window} (hcalm : ∀ v ∈ vs, Calm memoryLimit v) :
    let s := (newAdaptiveSampler memoryLimit).run raise ws
    (∀ i j, i ≤ j → (s.run raise (vs.take j)).den ≤ (s.run raise (vs.take i)).den) ∧
      ∀ j, remaining s.den.toNat s.unsafeDen.toNat s.stableWindows ≤ j → j ≤ vs.length →
        (s.run raise (vs.take j)).den = 1 := by
  intro s
  have hband : s.InBand := run_inBand raise (newAdaptiveSampler_inBand memoryLimit) ws
  have hsame : s.memoryLimit = memoryLimit := run_memoryLimit raise _ ws
  rw [← hsame] at hlimit hcalm
  constructor
  · intro i j hij
    have hsplit : vs.take j = vs.take i ++ (vs.take j).drop i := by
      conv_lhs => rw [← List.take_append_drop i (vs.take j), List.take_take, Nat.min_eq_left hij]
    have hkeep := run_memoryLimit raise s (vs.take i)
    rw [hsplit, run_append, UInt32.le_iff_toNat_le]
    refine run_calm_le raise (run_inBand raise hband _) (by rw [hkeep]; exact hlimit) ?_
    intro v hv
    rw [hkeep]
    exact hcalm v (List.mem_of_mem_take (List.mem_of_mem_drop hv))
  · intro j hneed hj
    refine UInt32.toNat_inj.mp (run_calm_one raise hband hlimit ?_ ?_)
    · exact fun v hv => hcalm v (List.mem_of_mem_take hv)
    · rw [List.length_take, Nat.min_eq_left hj]
      exact hneed

/-- After one lossy window, 75 calm ones are enough. -/
theorem fully_recovers_lossy :
    let s := (newAdaptiveSampler 1048576).run (exactly truncateInt64) [⟨0, 1 / 2⟩]
    s.den = 3 ∧
      (s.run (exactly truncateInt64) ((List.replicate 75 ⟨400000, 0⟩).take 75)).den = 1 := by
  have hcalm : ∀ v ∈ List.replicate 75 (⟨400000, 0⟩ : Window), Calm 1048576 v := by
    intro v hv
    rw [List.eq_of_mem_replicate hv]
    exact ⟨by decide, rfl⟩
  exact ⟨by decide +kernel, (fully_recovers (exactly truncateInt64) (by decide) [⟨0, 1 / 2⟩]
    hcalm).2 75 (by decide +kernel) (by decide)⟩

end GoFtrace.Sampler
