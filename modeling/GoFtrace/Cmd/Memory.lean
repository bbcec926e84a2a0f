import GoFtrace.Cmd.Options
import GoFtrace.EventManager.Accounting
import GoFtrace.Sampler.Pressure

/-!
# The memory of a tracer

What `--sample-budget` comes to: the limit that `Start` of `cmd/tracer.go` computes from it, the
events that `New` of `internal/eventmanager/eventmanager.go` allows for it, and the bands of the
sampler.

* `commandLine_memory`: in every run the retained events take a quarter of the budget at most.
-/

namespace GoFtrace.Cmd

open EventManager (GoftraceEvent Env aggEventBudgetDiv estimatedEventBytes handleAll pendingBudget)
open Sampler (percent)

/-- The configuration of the manager that `Start` creates; the other fields come from `Load` and
from the file. -/
def Config.manager (cfg : Config) (base : EventManager.Config) : EventManager.Config :=
  { base with
    drilldown := cfg.drilldown
    aggregate := cfg.aggregate
    hideUnexported := cfg.hideUnexported
    adaptive := cfg.adaptiveSample
    maxPendingEvents := pendingBudget cfg.adaptiveSample cfg.memoryLimit.toNat }

/-- A megabyte pays for 128 events. -/
theorem pendingBudget_memoryLimit {cfg : Config} (h : newTracer (some cfg) = .ok cfg) :
    pendingBudget true cfg.memoryLimit.toNat = 128 * cfg.memoryLimitMB.toNat := by
  obtain ⟨hlimit, hmin⟩ := newTracer_memoryLimit h
  unfold pendingBudget aggEventBudgetDiv estimatedEventBytes
  rw [if_pos rfl, hlimit]
  rw [hlimit] at hmin
  omega

/-- The bands of the sampler are apart. -/
theorem percent_lt {limit : UInt64} (h : 2 ^ 20 ≤ limit.toNat) :
    0 < percent limit 45 ∧ percent limit 45 < percent limit 70 ∧
      percent limit 70 < percent limit 85 ∧ percent limit 85 < limit := by
  simp only [UInt64.lt_iff_toNat_lt]
  rw [Sampler.percent_toNat _ (by decide), Sampler.percent_toNat _ (by decide),
    Sampler.percent_toNat _ (by decide)]
  change 0 < limit.toNat * 45 / 100 ∧ limit.toNat * 45 / 100 < limit.toNat * 70 / 100 ∧
    limit.toNat * 70 / 100 < limit.toNat * 85 / 100 ∧ limit.toNat * 85 / 100 < limit.toNat
  omega

/-- Whatever is traced with `--sample`: the budget is that of the command line, without overflow;
after every event, the retained events take a quarter of it at most, as they are estimated; and
the bands of the sampler lie below it, one above the other. -/
theorem commandLine_memory {cmd : CommandLine} {bin : List Char} {cfg : Config}
    (hcfg : runE cmd = .ok (bin, cfg)) (htracer : newTracer (some cfg) = .ok cfg)
    (hsample : cmd.sample = true) (base : EventManager.Config)
    (arrivals : List (GoftraceEvent × Env)) :
    cfg.memoryLimit.toNat = cmd.sampleBudget.toNat * 2 ^ 20 ∧
      (cfg.manager base).maxPendingEvents = 128 * cmd.sampleBudget.toNat ∧
      aggEventBudgetDiv * (estimatedEventBytes *
        (handleAll (cfg.manager base) {} arrivals).1.retainedTotal) ≤ cfg.memoryLimit.toNat ∧
      0 < percent cfg.memoryLimit 45 ∧ percent cfg.memoryLimit 45 < percent cfg.memoryLimit 70 ∧
      percent cfg.memoryLimit 70 < percent cfg.memoryLimit 85 ∧
      percent cfg.memoryLimit 85 < cfg.memoryLimit := by
  obtain ⟨hlimit, hmin⟩ := newTracer_memoryLimit htracer
  have hbudget := pendingBudget_memoryLimit htracer
  have hflags : cfg.memoryLimitMB = cmd.sampleBudget ∧ cfg.adaptiveSample = cmd.sample := by
    unfold runE at hcfg
    split at hcfg
    · cases hcfg
    · cases hcfg
      exact ⟨rfl, rfl⟩
  have hadaptive : cfg.adaptiveSample = true := hflags.2.trans hsample
  have hmax : (cfg.manager base).maxPendingEvents = 128 * cfg.memoryLimitMB.toNat := by
    show pendingBudget cfg.adaptiveSample cfg.memoryLimit.toNat = _
    rw [hadaptive, hbudget]
  have hrun := (@EventManager.invariants_handleAll (cfg.manager base) hadaptive arrivals).budgeted
  rw [← hflags.1]
  refine ⟨hlimit, hmax, ?_, percent_lt hmin⟩
  have hle := hrun.le
  rw [hrun.balanced, hmax] at hle
  rw [hlimit]
  unfold aggEventBudgetDiv estimatedEventBytes
  omega

/-- `--sample` with the default budget. -/
def sampling : CommandLine := { args := ["./main".toList], sample := true }

def samplingConfig : Config :=
  { uprobeWildcards := [], drilldown := "", trimprefix := "", excludeVendor := true
    fargs := [], frets := [], autoFetchArgs := true, autoFetchRets := true
    hideUnexported := false, aggregate := false, aggregateInterval := 3000000000
    adaptiveSample := true, memoryLimitMB := 256 }

/-- Two goroutines have entered a function and not returned. -/
theorem commandLine_memory_default :
    let cfg := samplingConfig.manager (EventManager.sampleConfig true)
    let m := (handleAll cfg {} (EventManager.sampleArrivals
      [EventManager.sampleStart 1, EventManager.sampleStart 2])).1
    samplingConfig.memoryLimit.toNat = 256 * 2 ^ 20 ∧ cfg.maxPendingEvents = 128 * 256 ∧
      m.retainedTotal = 2 ∧
      aggEventBudgetDiv * (estimatedEventBytes * m.retainedTotal) ≤
        samplingConfig.memoryLimit.toNat := by
  intro cfg m
  have htracer : newTracer (some samplingConfig) = .ok samplingConfig := rfl
  obtain ⟨hlimit, hmax, hretained, -⟩ := @commandLine_memory sampling _ samplingConfig rfl htracer
    rfl (EventManager.sampleConfig true) (EventManager.sampleArrivals
      [EventManager.sampleStart 1, EventManager.sampleStart 2])
  exact ⟨hlimit, hmax, by with_unfolding_all rfl, hretained⟩

end GoFtrace.Cmd
