import GoFtrace.Bpf.Stats
import GoFtrace.EventManager.Estimates
import GoFtrace.Sampler.Loss
import GoFtrace.Tracing.System

/-!
# A session

The event loop of `Start` in `cmd/tracer.go`, between `Attach` and the interrupt: the probes
run on the CPUs, the manager handles events, the sampling ticker feeds the sampler, and the
summary ticker prints. The `select` takes any of its cases that is ready.

* `session_stats`: what the counters of all CPUs tell of the events so far.
* `session_sampling`: the kernel samples at the rate of the sampler.
* `session_windows`: the windows of the sampler and of the summaries.
* `session_estimates`: without adaptive sampling the estimates are the counts.
-/

namespace GoFtrace

/-! ## The sampler of `Start` -/

namespace Sampler

/-- The interface `sampler`. -/
inductive RateSampler where
  /-- `noopSampler`. -/
  | noop
  | adaptive (s : AdaptiveSampler)

namespace RateSampler

def denominator : RateSampler → UInt32
  | noop => 1
  | adaptive s => s.den

/-- `adjust`: the sampler afterwards, the denominator and whether it changed. -/
def adjust (raise : Raised) : RateSampler → Window → RateSampler × UInt32 × Bool
  | noop, _ => (noop, 1, false)
  | adaptive s, w => (adaptive (s.adjust raise w), s.adjustResult raise w)

/-- The windows of a session, one after the other. -/
def run (raise : Raised) (s : RateSampler) (ws : List Window) : RateSampler :=
  ws.foldl (fun s w => (s.adjust raise w).1) s

/-- The choice in `Start`. -/
def choose (adaptiveSample : Bool) (memoryLimit : UInt64) : RateSampler :=
  if adaptiveSample then adaptive (newAdaptiveSampler memoryLimit) else noop

/-- The bounds of the denominator. -/
def InBand : RateSampler → Prop
  | noop => True
  | adaptive s => s.InBand

section
variable {raise : Raised} {s : RateSampler}

theorem adjust_snd (raise : Raised) (s : RateSampler) (w : Window) :
    (s.adjust raise w).2 = ((s.adjust raise w).1.denominator,
      (s.adjust raise w).1.denominator != s.denominator) := by
  cases s <;> rfl

theorem run_concat (raise : Raised) (s : RateSampler) (ws : List Window) (w : Window) :
    s.run raise (ws ++ [w]) = ((s.run raise ws).adjust raise w).1 := List.foldl_append

theorem eq_noop_of_adjust {w : Window} (h : (s.adjust raise w).1 = noop) : s = noop := by
  cases s with
  | noop => rfl
  | adaptive s => cases h

theorem choose_inBand (adaptiveSample : Bool) (memoryLimit : UInt64) :
    (choose adaptiveSample memoryLimit).InBand := by
  cases adaptiveSample with
  | false => trivial
  | true => exact AdaptiveSampler.newAdaptiveSampler_inBand memoryLimit

theorem InBand.adjust (h : s.InBand) (w : Window) : (s.adjust raise w).1.InBand := by
  cases s with
  | noop => trivial
  | adaptive s => exact AdaptiveSampler.adjust_inBand raise h w

theorem InBand.run (h : s.InBand) (ws : List Window) : (s.run raise ws).InBand := by
  induction ws generalizing s with
  | nil => exact h
  | cons w ws ih => exact ih (h.adjust w)

theorem InBand.denominator (h : s.InBand) :
    1 ≤ s.denominator.toNat ∧ s.denominator.toNat ≤ 2 ^ 20 := by
  cases s with
  | noop => exact ⟨Nat.le_refl 1, Nat.one_le_two_pow⟩
  | adaptive s => exact ⟨h.low, h.high⟩

theorem run_noop (raise : Raised) (ws : List Window) : noop.run raise ws = noop := by
  induction ws with
  | nil => rfl
  | cons w ws ih => exact ih

end

end RateSampler

end Sampler

namespace Tracing

open Bpf (GoidKey)
open EventManager (FuncSummary)
open Sampler (RateSampler Raised Counters)

/-! ## States and moves -/

/-- The counters that `PrintWindowStats` prints. -/
structure WindowStats where
  detected : UInt64
  skipped : UInt64
  queued : UInt64
  dropped : UInt64
  deriving DecidableEq, Repr

/-- `PrintWindowStats`, up to its rates. -/
def windowStats (prev curr : Bpf.StatsTotal) : WindowStats where
  detected := curr.wantedRoots - prev.wantedRoots
  skipped := curr.sampledOutRoots - prev.sampledOutRoots
  queued := curr.emittedEvents - prev.emittedEvents
  dropped := curr.droppedEvents - prev.droppedEvents

/-- An event that `push_event` got, and whether the queue took it. -/
abbrev Push := Bpf.Event × Bool

/-- The variables of `Start`, the kernel and the manager. -/
structure Session where
  system : System := {}
  /-- `runtime_stats_map`: the counters of each CPU. -/
  cpus : List Bpf.RuntimeStats
  sampler : RateSampler
  /-- `lastEmitted` and `lastDropped`. -/
  last : Counters := { emitted := 0, dropped := 0 }
  lastSummaryStats : Bpf.StatsTotal := {}
  /-- For the record: the pushes, the events handled, and the denominators written to
  `sample_config_map`. -/
  pushes : List Push := []
  handled : List (Bpf.Event × EventManager.Env) := []
  written : List UInt32 := []
  /-- For the record: the pushes of each window of the sampler, and those since the last one. -/
  windows : List (List Push × Sampler.Window) := []
  recent : List Push := []
  /-- For the record: the pushes of each window printed, and those since the last one. -/
  printed : List (List Push × WindowStats) := []
  unprinted : List Push := []

namespace Session

/-- The programs of `ftrace.c`. -/
inductive Program where
  | ent
  | ret
  | goroutineExit

def Program.action (h : Bpf.Hit) : Program → Bpf.Action
  | ent => .ent h
  | ret => .ret h
  | goroutineExit => .goroutineExit h

inductive Move (ncpu : Nat) where
  /-- A probe is hit on a CPU. -/
  | hit (cpu : Fin ncpu) (program : Program) (h : Bpf.Hit)
  /-- `mgr.Handle` of an event from the queue. -/
  | handle (env : EventManager.Env)
  /-- `<-samplingCh`, with the heap usage read. -/
  | sampling (heapAlloc : UInt64)
  /-- `<-summaryCh`. -/
  | summary

/-- `SetSampleDenominator` when `adjust` reports a change. -/
def setDenominator (s : Session) (r : RateSampler × UInt32 × Bool) : Session :=
  if r.2.2 then
    { s with
      sampler := r.1
      system := { s.system with kernel := s.system.kernel.setSampleDenominator r.2.1 }
      written := s.written ++ [r.2.1] }
  else { s with sampler := r.1 }

/-- The state in which the loop starts, with the heap usage that the first `adjust` gets. -/
def start (raise : Raised) (adaptiveSample : Bool) (memoryLimit : UInt64) (ncpu : Nat)
    (heapAlloc : UInt64) : Session :=
  let sampler := RateSampler.choose adaptiveSample memoryLimit
  let s : Session := { cpus := List.replicate ncpu {}, sampler := sampler }
  s.setDenominator (sampler.adjust raise { heapAlloc := heapAlloc, lossRate := 0 })

/-- The push of a step. -/
def pushed (e : Option Bpf.Event) (a : Bpf.Action) : List Push :=
  e.toList.map fun e => (e, a.pushOk)

/-- A hit on a CPU. -/
def hit (bcfg : Bpf.Config) (s : Session) (cpu : Nat) (a : Bpf.Action) : Session :=
  let kernel : Bpf.PerCpu := { maps := s.system.kernel, runtimeStatsMap := s.cpus }
  let (kernel', e) := kernel.step bcfg cpu a
  { s with
    system := s.system.kernelStep bcfg a
    cpus := kernel'.runtimeStatsMap
    pushes := s.pushes ++ pushed e a
    recent := s.recent ++ pushed e a
    unprinted := s.unprinted ++ pushed e a }

/-- The case `<-events`. -/
def handle (cfg : EventManager.Config) (s : Session) (env : EventManager.Env) : Session :=
  { s with
    system := s.system.deliverStep cfg env
    handled := s.handled ++ (s.system.kernel.eventQueue.take 1).map fun e => (e, env) }

/-- The window that `lossRateSince` closes, with the heap usage read. -/
def closeWindow (s : Session) (heapAlloc : UInt64) : Session × Sampler.Window :=
  let stats := Bpf.readRuntimeStats s.cpus
  let (lossRate, last) := Sampler.lossRateSince s.last
    { emitted := stats.emittedEvents, dropped := stats.droppedEvents }
  let window : Sampler.Window := { heapAlloc := heapAlloc, lossRate := lossRate }
  ({ s with last := last, windows := s.windows ++ [(s.recent, window)], recent := [] }, window)

/-- The case `<-samplingCh`. -/
def sampling (raise : Raised) (s : Session) (heapAlloc : UInt64) : Session :=
  let (s, window) := s.closeWindow heapAlloc
  s.setDenominator (s.sampler.adjust raise window)

/-- The case `<-summaryCh`. -/
def summary (s : Session) : Session :=
  let stats := Bpf.readRuntimeStats s.cpus
  { s with
    lastSummaryStats := stats
    printed := s.printed ++ [(s.unprinted, windowStats s.lastSummaryStats stats)]
    unprinted := [] }

def step (bcfg : Bpf.Config) (cfg : EventManager.Config) (raise : Raised) {ncpu : Nat}
    (s : Session) : Move ncpu → Session
  | .hit cpu program h => s.hit bcfg cpu (program.action h)
  | .handle env => s.handle cfg env
  | .sampling heapAlloc => s.sampling raise heapAlloc
  | .summary => s.summary

def run (bcfg : Bpf.Config) (cfg : EventManager.Config) (raise : Raised) {ncpu : Nat}
    (s : Session) (moves : List (Move ncpu)) : Session :=
  moves.foldl (step bcfg cfg raise) s

section
variable {bcfg : Bpf.Config} {cfg : EventManager.Config} {raise : Raised} {ncpu : Nat}

/-- What every move preserves holds after every run. -/
theorem run_induction {Inv : Session → Prop}
    (hstep : ∀ s (move : Move ncpu), Inv s → Inv (s.step bcfg cfg raise move))
    (moves : List (Move ncpu)) {s : Session} (hs : Inv s) : Inv (s.run bcfg cfg raise moves) := by
  induction moves generalizing s with
  | nil => exact hs
  | cons move moves ih => exact ih (hstep s move hs)

end

/-! ## The moves -/

section
variable {bcfg : Bpf.Config} {cfg : EventManager.Config} {raise : Raised} {ncpu : Nat}
  {s : Session}

theorem setDenominator_sampler (s : Session) (r : RateSampler × UInt32 × Bool) :
    (s.setDenominator r).sampler = r.1 := by
  unfold setDenominator
  split <;> rfl

theorem setDenominator_windows (s : Session) (r : RateSampler × UInt32 × Bool) :
    (s.setDenominator r).windows = s.windows := by
  unfold setDenominator
  split <;> rfl

/-- The counters of the CPUs are those of the kernel with one counter. -/
structure Summed (ncpu : Nat) (s : Session) : Prop where
  length : s.cpus.length = ncpu
  sum : s.cpus.sum = s.system.kernel.stats

/-- What a hit does to the variables of the session. -/
theorem Summed.hit (h : Summed ncpu s) (bcfg : Bpf.Config) (cpu : Fin ncpu) (a : Bpf.Action) :
    Summed ncpu (s.hit bcfg cpu a) ∧
      ∃ new, new = pushed (Bpf.step bcfg s.system.kernel a).2 a ∧
        (s.hit bcfg cpu a).system = s.system.kernelStep bcfg a ∧
        (s.hit bcfg cpu a).pushes = s.pushes ++ new ∧
        (s.hit bcfg cpu a).recent = s.recent ++ new ∧
        (s.hit bcfg cpu a).unprinted = s.unprinted ++ new := by
  have hrefines : Bpf.PerCpu.Refines { maps := s.system.kernel, runtimeStatsMap := s.cpus }
      s.system.kernel := ⟨rfl, h.sum⟩
  obtain ⟨hstep, hevent, hlen⟩ := hrefines.step bcfg (by rw [h.length]; exact cpu.isLt) a
  refine ⟨⟨hlen.trans h.length, hstep.stats⟩, _, rfl, rfl, ?_⟩
  unfold Session.hit
  dsimp only
  rw [hevent]
  exact ⟨rfl, rfl, rfl⟩

end

/-! ## Counting -/

section
variable {bcfg : Bpf.Config} {cfg : EventManager.Config} {raise : Raised} {ncpu : Nat}
  {s : Session}

/-- The counters, the queue and the manager after some pushes. -/
structure Accounts (bcfg : Bpf.Config) (cfg : EventManager.Config) (ncpu : Nat) (s : Session) :
    Prop extends Summed ncpu s where
  tallied : Bpf.Tallied bcfg s.system.kernel.stats (s.pushes.map Prod.fst)
  emitted : s.system.kernel.stats.emittedEvents = s.pushes.countP Prod.snd
  delivered : (s.pushes.filter Prod.snd).map Prod.fst =
    s.handled.map Prod.fst ++ s.system.kernel.eventQueue
  manager : s.system.manager = (EventManager.handleAll cfg {} s.handled).1

theorem map_fst_pushed (e : Option Bpf.Event) (a : Bpf.Action) :
    (pushed e a).map Prod.fst = e.toList := by
  cases e <;> rfl

theorem filter_pushed (e : Option Bpf.Event) (a : Bpf.Action) :
    ((pushed e a).filter Prod.snd).map Prod.fst = if a.pushOk then e.toList else [] := by
  cases e with
  | none => cases a.pushOk <;> rfl
  | some e =>
    unfold pushed
    cases a.pushOk <;> rfl

theorem countP_pushed (e : Option Bpf.Event) (a : Bpf.Action) :
    (pushed e a).countP Prod.snd = e.toList.countP fun _ => a.pushOk := by
  rw [pushed, List.countP_map]
  rfl

/-- Setting the denominator counts nothing. -/
theorem Accounts.setDenominator (h : Accounts bcfg cfg ncpu s) (r : RateSampler × UInt32 × Bool) :
    Accounts bcfg cfg ncpu (s.setDenominator r) := by
  unfold Session.setDenominator
  split
  · exact ⟨⟨h.length, h.sum⟩, h.tallied, h.emitted, h.delivered, h.manager⟩
  · exact ⟨⟨h.length, h.sum⟩, h.tallied, h.emitted, h.delivered, h.manager⟩

theorem Accounts.hit (h : Accounts bcfg cfg ncpu s) (cpu : Fin ncpu) (a : Bpf.Action) :
    Accounts bcfg cfg ncpu (s.hit bcfg cpu a) := by
  obtain ⟨hsummed, new, hnew, hsystem, hpushes, -⟩ := h.toSummed.hit bcfg cpu a
  have hkernel : (s.hit bcfg cpu a).system.kernel = (Bpf.step bcfg s.system.kernel a).1 := by
    rw [hsystem]
    rfl
  have hstats := Bpf.step_stats bcfg s.system.kernel a
  refine ⟨hsummed, ?_, ?_, ?_, ?_⟩
  · rw [hkernel, hpushes, hnew, List.map_append, map_fst_pushed]
    exact h.tallied.step hstats
  · rw [hkernel, hpushes, hnew, List.countP_append, countP_pushed, ← h.emitted]
    exact hstats.emitted
  · rw [hkernel, hpushes, hnew, List.filter_append, List.map_append, filter_pushed, h.delivered,
      Bpf.step_eventQueue, List.append_assoc]
    rfl
  · rw [hsystem]
    exact h.manager

theorem Accounts.handle (h : Accounts bcfg cfg ncpu s) (env : EventManager.Env) :
    Accounts bcfg cfg ncpu (s.handle cfg env) := by
  have hdelivered := h.delivered
  unfold Session.handle System.deliverStep
  cases hqueue : s.system.kernel.eventQueue with
  | nil =>
    rw [hqueue] at hdelivered
    refine ⟨⟨h.length, h.sum⟩, h.tallied, h.emitted, ?_, ?_⟩
    · dsimp only
      rw [hdelivered, hqueue]
      simp
    · simpa using h.manager
  | cons event queue =>
    rw [hqueue] at hdelivered
    refine ⟨⟨h.length, h.sum⟩, h.tallied, h.emitted, ?_, ?_⟩
    · dsimp only
      rw [hdelivered]
      simp
    · dsimp only
      rw [EventManager.handleAll_append_fst, ← h.manager]
      rfl

theorem Accounts.step (h : Accounts bcfg cfg ncpu s) (move : Move ncpu) :
    Accounts bcfg cfg ncpu (s.step bcfg cfg raise move) := by
  cases move with
  | hit cpu program hit => exact h.hit cpu (program.action hit)
  | handle env => exact h.handle env
  | sampling heapAlloc =>
    refine Accounts.setDenominator (s := (s.closeWindow heapAlloc).1) ?_ _
    exact ⟨⟨h.length, h.sum⟩, h.tallied, h.emitted, h.delivered, h.manager⟩
  | summary => exact ⟨⟨h.length, h.sum⟩, h.tallied, h.emitted, h.delivered, h.manager⟩

theorem accounts_start (adaptiveSample : Bool) (memoryLimit : UInt64) (heapAlloc : UInt64) :
    Accounts bcfg cfg ncpu (start raise adaptiveSample memoryLimit ncpu heapAlloc) := by
  refine Accounts.setDenominator ⟨⟨?_, ?_⟩, ?_, rfl, rfl, rfl⟩ _
  · exact List.length_replicate
  · have hzero : ∀ n, (List.replicate n (0 : Bpf.RuntimeStats)).sum = 0 := by
      intro n
      refine List.sum_eq_zero fun x hx => ?_
      exact List.eq_of_mem_replicate hx
    exact hzero ncpu
  · exact Bpf.tallied_empty bcfg

/-- What the totals of the CPUs tell of a session. -/
structure Tells (bcfg : Bpf.Config) (s : Session) (stats : Bpf.StatsTotal) : Prop where
  roots : stats.wantedRoots =
    stats.admittedRoots + stats.sampledOutRoots + stats.stateInsertFailures
  emitted : stats.emittedEvents =
    UInt64.ofNat (s.handled.length + s.system.kernel.eventQueue.length)
  dropped : stats.droppedEvents = UInt64.ofNat (s.pushes.countP fun p => !p.2)
  aborted : stats.abortedRoots =
    UInt64.ofNat (s.pushes.countP fun p => p.1.traceFlags = Bpf.traceAbort)
  admitted : bcfg.adaptiveSampling = true → stats.admittedRoots =
    UInt64.ofNat (s.pushes.countP fun p => p.1.traceFlags = Bpf.traceStart)

theorem countP_snd_add (ps : List Push) :
    (ps.countP Prod.snd) + (ps.countP fun p => !p.2) = ps.length := by
  rw [List.length_eq_countP_add_countP Prod.snd]
  congr 2
  ext p
  cases p.2 <;> rfl

theorem Accounts.dropped (h : Accounts bcfg cfg ncpu s) :
    s.system.kernel.stats.droppedEvents = s.pushes.countP fun p => !p.2 := by
  have hevents := h.tallied.events
  have hemitted := h.emitted
  have hall := countP_snd_add s.pushes
  rw [List.length_map] at hevents
  omega

theorem Summed.stats (h : Summed ncpu s) :
    Bpf.readRuntimeStats s.cpus = s.system.kernel.stats.total := by
  rw [Bpf.readRuntimeStats_eq, h.sum]

theorem Accounts.tells (h : Accounts bcfg cfg ncpu s) :
    Tells bcfg s (Bpf.readRuntimeStats s.cpus) := by
  have hlen := congrArg List.length h.delivered
  rw [List.length_map, ← List.countP_eq_length_filter, List.length_append, List.length_map] at hlen
  rw [h.stats]
  refine ⟨?_, ?_, ?_, ?_, fun ha => ?_⟩
  · simp only [Bpf.RuntimeStats.total, Bpf.StatsTotal.plus, UInt64.zero_add, h.tallied.roots,
      UInt64.ofNat_add]
  · simp only [Bpf.RuntimeStats.total, Bpf.StatsTotal.plus, UInt64.zero_add, h.emitted, hlen]
  · simp only [Bpf.RuntimeStats.total, Bpf.StatsTotal.plus, UInt64.zero_add, h.dropped]
  · simp only [Bpf.RuntimeStats.total, Bpf.StatsTotal.plus, UInt64.zero_add, h.tallied.aborted,
      List.countP_map]
    rfl
  · simp only [Bpf.RuntimeStats.total, Bpf.StatsTotal.plus, UInt64.zero_add, h.tallied.admitted ha,
      List.countP_map]
    rfl

end

/-! ## Sampling -/

section
variable {bcfg : Bpf.Config} {cfg : EventManager.Config} {raise : Raised} {ncpu : Nat}
  {s : Session} {adaptiveSample : Bool} {memoryLimit : UInt64} {first : Sampler.Window}

/-- The kernel samples at the rate of the sampler. -/
structure Follows (s : Session) : Prop where
  current : s.system.kernel.currentSampleDenominator = s.sampler.denominator
  last : (1 :: s.written).getLast? = some s.sampler.denominator
  chain : (1 :: s.written).IsChain (· ≠ ·)
  states : ∀ k st, s.system.kernel.shouldTraceGoid k = some st →
    st.sampleDenominator ∈ 1 :: s.written
  pushes : ∀ p ∈ s.pushes,
    p.1.location = Bpf.goroutineExitPoint ∨ p.1.sampleDenominator ∈ 1 :: s.written
  sampledOut : s.sampler = .noop →
    s.written = [] ∧ s.system.kernel.stats.sampledOutRoots = 0

theorem current_setSampleDenominator (m : Bpf.Maps) {d : UInt32} (hd : 1 ≤ d.toNat) :
    (m.setSampleDenominator d).currentSampleDenominator = d := by
  have hzero : d ≠ 0 := by
    rintro rfl
    exact absurd hd (by decide)
  unfold Bpf.Maps.setSampleDenominator Bpf.Maps.currentSampleDenominator
  dsimp only
  rw [if_neg hzero]
  split
  · rename_i hle
    exact (UInt32.le_antisymm hle (UInt32.le_iff_toNat_le.mpr hd)).symm
  · rfl

/-- A change of the denominator is written to the kernel. -/
theorem Follows.adjust (h : Follows s) (hband : s.sampler.InBand) (w : Sampler.Window) :
    Follows (s.setDenominator (s.sampler.adjust raise w)) := by
  have hnext := (@RateSampler.InBand.adjust raise s.sampler hband w).denominator
  have hnoop := @RateSampler.eq_noop_of_adjust raise s.sampler w
  have hsnd := RateSampler.adjust_snd raise s.sampler w
  generalize s.sampler.adjust raise w = r at hnext hnoop hsnd ⊢
  obtain ⟨next, d, changed⟩ := r
  dsimp only at hnext hnoop hsnd
  obtain ⟨rfl, rfl⟩ := Prod.mk.inj hsnd
  unfold Session.setDenominator
  by_cases hsame : next.denominator = s.sampler.denominator
  · rw [if_neg (by simp [hsame])]
    refine ⟨h.current.trans hsame.symm, ?_, h.chain, h.states, h.pushes, fun hn => ?_⟩
    · rw [hsame]
      exact h.last
    · exact h.sampledOut (hnoop hn)
  · rw [if_pos (by simp [hsame])]
    have hmem : ∀ {d}, d ∈ 1 :: s.written → d ∈ 1 :: (s.written ++ [next.denominator]) :=
      fun hd => List.mem_append_left [next.denominator] hd
    refine ⟨current_setSampleDenominator _ hnext.1, ?_, ?_, fun k st hst => hmem (h.states k st hst),
      fun p hp => (h.pushes p hp).imp_right hmem, fun hn => ?_⟩
    · change ((1 :: s.written) ++ [next.denominator]).getLast? = some next.denominator
      exact List.getLast?_concat
    · change ((1 :: s.written) ++ [next.denominator]).IsChain (· ≠ ·)
      rw [List.isChain_append]
      refine ⟨h.chain, List.isChain_singleton _, ?_⟩
      intro x hx y hy hxy
      rw [h.last, Option.mem_some_iff] at hx
      rw [List.head?_singleton, Option.mem_some_iff] at hy
      exact hsame (by rw [hx, hy, hxy])
    · have hdenom : next.denominator = s.sampler.denominator := by
        have hn' : next = .noop := hn
        rw [hn', hnoop hn]
      exact absurd hdenom hsame

theorem program_settings (bcfg : Bpf.Config) (m : Bpf.Maps) (program : Program) (h : Bpf.Hit) :
    (Bpf.step bcfg m (program.action h)).1.settings = m.settings := by
  cases program with
  | ent => exact Bpf.ent_settings bcfg h m
  | ret => exact Bpf.ret_settings bcfg h m
  | goroutineExit => exact Bpf.goroutineExit_settings h m

/-- A hit is sampled at the current rate, or at the one its sample began with. -/
theorem Follows.hit (h : Follows s) (hsummed : Summed ncpu s) (cpu : Fin ncpu)
    (program : Program) (hit : Bpf.Hit) : Follows (s.hit bcfg cpu (program.action hit)) := by
  have hsettings := program_settings bcfg s.system.kernel program hit
  generalize program.action hit = a at hsettings ⊢
  obtain ⟨-, new, hnew, hsystem, hpushes, -⟩ := hsummed.hit bcfg cpu a
  have hkernel : (s.hit bcfg cpu a).system.kernel = (Bpf.step bcfg s.system.kernel a).1 := by
    rw [hsystem]
    rfl
  have hcurrent : s.system.kernel.currentSampleDenominator ∈ 1 :: s.written := by
    rw [h.current]
    exact List.mem_of_getLast? h.last
  obtain ⟨hstates, hevents⟩ := @Bpf.step_denominators bcfg
    (fun d => d ∈ 1 :: s.written) _ hcurrent h.states a
  refine ⟨?_, h.last, h.chain, ?_, ?_, fun hn => ⟨(h.sampledOut hn).1, ?_⟩⟩
  · have hden : (Bpf.step bcfg s.system.kernel a).1.sampleDenominator =
        s.system.kernel.sampleDenominator := congrArg Prod.fst hsettings
    rw [hkernel, Bpf.Maps.currentSampleDenominator, hden]
    exact h.current
  · rw [hkernel]
    exact hstates
  · rw [hpushes]
    refine List.forall_mem_append.mpr ⟨h.pushes, ?_⟩
    rw [hnew]
    rintro p hp
    obtain ⟨e, he, rfl⟩ := List.mem_map.mp hp
    exact hevents e (Option.mem_toList.mp he)
  · have hstats := Bpf.step_stats bcfg s.system.kernel a
    have hone : s.system.kernel.currentSampleDenominator = 1 := by
      rw [h.current, show s.sampler = .noop from hn]
      rfl
    rw [hone] at hstats
    rw [hkernel, hstats.sampledOut_one]
    exact (h.sampledOut hn).2

theorem Follows.handle (h : Follows s) (env : EventManager.Env) : Follows (s.handle cfg env) := by
  have hkernel : (s.system.deliverStep cfg env).kernel.currentSampleDenominator =
      s.system.kernel.currentSampleDenominator ∧
      (s.system.deliverStep cfg env).kernel.shouldTraceGoid = s.system.kernel.shouldTraceGoid ∧
      (s.system.deliverStep cfg env).kernel.stats = s.system.kernel.stats := by
    unfold System.deliverStep
    cases s.system.kernel.eventQueue <;> exact ⟨rfl, rfl, rfl⟩
  obtain ⟨hcurrent, hstates, hstats⟩ := hkernel
  refine ⟨hcurrent.trans h.current, h.last, h.chain, ?_, h.pushes, fun hn => ?_⟩
  · intro k st hst
    exact h.states k st (by rw [← hstates]; exact hst)
  · exact ⟨(h.sampledOut hn).1, (congrArg _ hstats).trans (h.sampledOut hn).2⟩

/-- The kernel follows the sampler, and the sampler the windows. -/
structure Paced (raise : Raised) (adaptiveSample : Bool) (memoryLimit : UInt64)
    (first : Sampler.Window) (s : Session) : Prop extends Follows s where
  sampler : s.sampler =
    (RateSampler.choose adaptiveSample memoryLimit).run raise (first :: s.windows.map Prod.snd)

theorem Paced.inBand (h : Paced raise adaptiveSample memoryLimit first s) : s.sampler.InBand := by
  rw [h.sampler]
  exact (RateSampler.choose_inBand adaptiveSample memoryLimit).run _

theorem Paced.step (h : Paced raise adaptiveSample memoryLimit first s)
    (hsummed : Summed ncpu s) (move : Move ncpu) :
    Paced raise adaptiveSample memoryLimit first (s.step bcfg cfg raise move) := by
  cases move with
  | hit cpu program hit => exact ⟨h.toFollows.hit hsummed cpu program hit, h.sampler⟩
  | handle env => exact ⟨h.toFollows.handle env, h.sampler⟩
  | sampling heapAlloc =>
    have hclosed : Follows (s.closeWindow heapAlloc).1 :=
      ⟨h.current, h.last, h.chain, h.states, h.pushes, h.sampledOut⟩
    refine ⟨hclosed.adjust h.inBand _, ?_⟩
    change (setDenominator _ _).sampler =
      RateSampler.run raise _ (first :: (setDenominator _ _).windows.map Prod.snd)
    rw [setDenominator_sampler, setDenominator_windows]
    change (s.sampler.adjust raise (s.closeWindow heapAlloc).2).1 =
      RateSampler.run raise _ (first :: (s.windows ++ [_]).map Prod.snd)
    rw [List.map_append, ← List.cons_append, List.map_singleton, RateSampler.run_concat, h.sampler]
    rfl
  | summary => exact ⟨⟨h.current, h.last, h.chain, h.states, h.pushes, h.sampledOut⟩, h.sampler⟩

theorem paced_start (adaptiveSample : Bool) (memoryLimit : UInt64) (ncpu : Nat)
    (heapAlloc : UInt64) :
    Paced raise adaptiveSample memoryLimit { heapAlloc := heapAlloc, lossRate := 0 }
      (start raise adaptiveSample memoryLimit ncpu heapAlloc) := by
  have hone : (RateSampler.choose adaptiveSample memoryLimit).denominator = 1 := by
    cases adaptiveSample <;> rfl
  have hfollows : Follows { cpus := List.replicate ncpu {}
                            sampler := RateSampler.choose adaptiveSample memoryLimit } := by
    refine ⟨hone.symm, congrArg some hone.symm, List.isChain_singleton _, ?_, ?_, ?_⟩
    · intro k st hst
      cases hst
    · intro p hp
      cases hp
    · intro _
      exact ⟨rfl, rfl⟩
  refine ⟨hfollows.adjust (RateSampler.choose_inBand adaptiveSample memoryLimit) _, ?_⟩
  unfold start
  dsimp only
  rw [setDenominator_sampler, setDenominator_windows]
  rfl

end

/-! ## Windows -/

section
variable {bcfg : Bpf.Config} {cfg : EventManager.Config} {raise : Raised} {ncpu : Nat}
  {s : Session}

/-- The counters of some pushes. -/
def counters (ps : List Push) : Counters where
  emitted := UInt64.ofNat (ps.countP Prod.snd)
  dropped := UInt64.ofNat (ps.countP fun p => !p.2)

/-- The share of some pushes that the queue did not take. -/
def lostShare (ps : List Push) : ℚ := (ps.countP fun p => !p.2 : ℚ) / ps.length

theorem counters_since (xs ys : List Push) :
    (counters (xs ++ ys)).since (counters xs) = counters ys := by
  simp only [Counters.since, counters, List.countP_append, UInt64.ofNat_add]
  congr 1
  · rw [UInt64.add_comm, UInt64.add_sub_cancel]
  · rw [UInt64.add_comm, UInt64.add_sub_cancel]

/-- The loss rate is exact even when the counters have wrapped around. -/
theorem lossRateSince_counters (xs : List Push) {ys : List Push} (hlen : ys.length < 2 ^ 64) :
    (Sampler.lossRateSince (counters xs) (counters (xs ++ ys))).1 = lostShare ys := by
  have hsum := countP_snd_add ys
  have htotal : (counters ys).emitted + (counters ys).dropped = UInt64.ofNat ys.length := by
    rw [counters, ← UInt64.ofNat_add, hsum]
  have hdropped : (counters ys).dropped.toNat = ys.countP fun p => !p.2 :=
    UInt64.toNat_ofNat_of_lt' (lt_of_le_of_lt List.countP_le_length hlen)
  have hnat : (UInt64.ofNat ys.length).toNat = ys.length := UInt64.toNat_ofNat_of_lt' hlen
  unfold Sampler.lossRateSince
  dsimp only
  rw [counters_since, htotal, hdropped, hnat, lostShare]
  split
  · rename_i hzero
    have hempty : ys.length = 0 := by
      rw [← hnat, hzero]
      rfl
    rw [hempty, Nat.cast_zero, div_zero]
  · rfl

/-- What the windows of the sampler and of the summaries tell of the pushes. -/
structure Windowed (s : Session) : Prop where
  windows : s.windows.flatMap Prod.fst ++ s.recent = s.pushes
  last : s.last = counters (s.windows.flatMap Prod.fst)
  rates : ∀ w ∈ s.windows, w.1.length < 2 ^ 64 → w.2.lossRate = lostShare w.1
  printed : s.printed.flatMap Prod.fst ++ s.unprinted = s.pushes
  shown : ⟨s.lastSummaryStats.emittedEvents, s.lastSummaryStats.droppedEvents⟩ =
    counters (s.printed.flatMap Prod.fst)
  deltas : ∀ w ∈ s.printed, ⟨w.2.queued, w.2.dropped⟩ = counters w.1

theorem Accounts.counters (h : Accounts bcfg cfg ncpu s) :
    ⟨(Bpf.readRuntimeStats s.cpus).emittedEvents, (Bpf.readRuntimeStats s.cpus).droppedEvents⟩ =
      counters s.pushes := by
  rw [h.stats]
  simp only [Bpf.RuntimeStats.total, Bpf.StatsTotal.plus, UInt64.zero_add, h.emitted, h.dropped]
  rfl

theorem Windowed.setDenominator (h : Windowed s) (r : RateSampler × UInt32 × Bool) :
    Windowed (s.setDenominator r) := by
  unfold Session.setDenominator
  split <;> exact ⟨h.windows, h.last, h.rates, h.printed, h.shown, h.deltas⟩

theorem Windowed.closeWindow (h : Windowed s) (ha : Accounts bcfg cfg ncpu s)
    (heapAlloc : UInt64) : Windowed (s.closeWindow heapAlloc).1 := by
  have hread := ha.counters
  have hall : (s.windows ++ [(s.recent, (s.closeWindow heapAlloc).2)]).flatMap Prod.fst =
      s.pushes := by
    rw [List.flatMap_append, List.flatMap_singleton]
    exact h.windows
  refine ⟨?_, ?_, ?_, h.printed, h.shown, h.deltas⟩
  · exact (List.append_nil _).trans hall
  · exact hread.trans (congrArg _ hall.symm)
  · refine List.forall_mem_append.mpr ⟨h.rates, List.forall_mem_singleton.mpr fun hlen => ?_⟩
    rw [← lossRateSince_counters (s.windows.flatMap Prod.fst) hlen, h.windows, ← h.last, ← hread]
    rfl

theorem Windowed.summary (h : Windowed s) (ha : Accounts bcfg cfg ncpu s) :
    Windowed s.summary := by
  have hread := ha.counters
  have hall : (s.printed ++ [(s.unprinted, windowStats s.lastSummaryStats
      (Bpf.readRuntimeStats s.cpus))]).flatMap Prod.fst = s.pushes := by
    rw [List.flatMap_append, List.flatMap_singleton]
    exact h.printed
  refine ⟨h.windows, h.last, h.rates, ?_, ?_, ?_⟩
  · exact (List.append_nil _).trans hall
  · exact hread.trans (congrArg _ hall.symm)
  · refine List.forall_mem_append.mpr ⟨h.deltas, List.forall_mem_singleton.mpr ?_⟩
    rw [← counters_since (s.printed.flatMap Prod.fst), h.printed, ← h.shown, ← hread]
    rfl

theorem Windowed.step (h : Windowed s) (ha : Accounts bcfg cfg ncpu s) (move : Move ncpu) :
    Windowed (s.step bcfg cfg raise move) := by
  cases move with
  | hit cpu program hit =>
    obtain ⟨-, new, -, -, hpushes, hrecent, hunprinted⟩ :=
      ha.toSummed.hit bcfg cpu (program.action hit)
    refine ⟨?_, h.last, h.rates, ?_, h.shown, h.deltas⟩
    · change s.windows.flatMap Prod.fst ++ (s.hit bcfg cpu (program.action hit)).recent =
        (s.hit bcfg cpu (program.action hit)).pushes
      rw [hrecent, hpushes, ← h.windows, List.append_assoc]
    · change s.printed.flatMap Prod.fst ++ (s.hit bcfg cpu (program.action hit)).unprinted =
        (s.hit bcfg cpu (program.action hit)).pushes
      rw [hunprinted, hpushes, ← h.printed, List.append_assoc]
  | handle env => exact ⟨h.windows, h.last, h.rates, h.printed, h.shown, h.deltas⟩
  | sampling heapAlloc => exact (h.closeWindow ha heapAlloc).setDenominator _
  | summary => exact h.summary ha

end

/-! ## Every session -/

section
variable (bcfg : Bpf.Config) (cfg : EventManager.Config) (raise : Raised) (adaptiveSample : Bool)
  (memoryLimit : UInt64) {ncpu : Nat} (heapAlloc : UInt64)

theorem accounts_run (moves : List (Move ncpu)) :
    Accounts bcfg cfg ncpu
      ((start raise adaptiveSample memoryLimit ncpu heapAlloc).run bcfg cfg raise moves) :=
  run_induction (fun _ move h => h.step move) moves
    (accounts_start adaptiveSample memoryLimit heapAlloc)

theorem paced_run (moves : List (Move ncpu)) :
    Paced raise adaptiveSample memoryLimit { heapAlloc := heapAlloc, lossRate := 0 }
      ((start raise adaptiveSample memoryLimit ncpu heapAlloc).run bcfg cfg raise moves) := by
  have hboth := @run_induction bcfg cfg raise ncpu
    (fun s => Accounts bcfg cfg ncpu s ∧
      Paced raise adaptiveSample memoryLimit { heapAlloc := heapAlloc, lossRate := 0 } s)
    (fun _ move h => ⟨h.1.step move, h.2.step h.1.toSummed move⟩) moves _
    ⟨accounts_start adaptiveSample memoryLimit heapAlloc,
      paced_start adaptiveSample memoryLimit ncpu heapAlloc⟩
  exact hboth.2

theorem windowed_run (moves : List (Move ncpu)) :
    Windowed
      ((start raise adaptiveSample memoryLimit ncpu heapAlloc).run bcfg cfg raise moves) := by
  have hstart : Windowed (start raise adaptiveSample memoryLimit ncpu heapAlloc) := by
    refine Windowed.setDenominator ⟨rfl, rfl, ?_, rfl, rfl, ?_⟩ _
    · intro w hw
      cases hw
    · intro w hw
      cases hw
  have hboth := @run_induction bcfg cfg raise ncpu
    (fun s => Accounts bcfg cfg ncpu s ∧ Windowed s)
    (fun _ move h => ⟨h.1.step move, h.2.step h.1 move⟩) moves _
    ⟨accounts_start adaptiveSample memoryLimit heapAlloc, hstart⟩
  exact hboth.2

/-- Whatever the order of hits, events and ticks: what `ReadRuntimeStats` adds up over the CPUs
tells the events so far, those that the queue took are handled in their order, and the manager is
in the state that these leave it in. -/
theorem session_stats (moves : List (Move ncpu)) :
    let s := (start raise adaptiveSample memoryLimit ncpu heapAlloc).run bcfg cfg raise moves
    Tells bcfg s (Bpf.readRuntimeStats s.cpus) ∧
      (s.pushes.filter Prod.snd).map Prod.fst =
        s.handled.map Prod.fst ++ s.system.kernel.eventQueue ∧
      s.system.manager = (EventManager.handleAll cfg {} s.handled).1 := by
  intro s
  have haccounts := accounts_run bcfg cfg raise adaptiveSample memoryLimit heapAlloc moves
  exact ⟨haccounts.tells, haccounts.delivered, haccounts.manager⟩

/-- The kernel samples at the rate of the sampler, which is that of the windows so far; it is
written only when it changes, and every event of a sample carries a rate that was written.
Without adaptive sampling nothing is written and no root call is sampled out. -/
theorem session_sampling (moves : List (Move ncpu)) :
    let s := (start raise adaptiveSample memoryLimit ncpu heapAlloc).run bcfg cfg raise moves
    s.sampler = (RateSampler.choose adaptiveSample memoryLimit).run raise
        ({ heapAlloc := heapAlloc, lossRate := 0 } :: s.windows.map Prod.snd) ∧
      s.system.kernel.currentSampleDenominator = s.sampler.denominator ∧
      (1 ≤ s.sampler.denominator.toNat ∧ s.sampler.denominator.toNat ≤ 2 ^ 20) ∧
      (1 :: s.written).IsChain (· ≠ ·) ∧
      (1 :: s.written).getLast? = some s.sampler.denominator ∧
      (∀ p ∈ s.pushes,
        p.1.location = Bpf.goroutineExitPoint ∨ p.1.sampleDenominator ∈ 1 :: s.written) ∧
      (adaptiveSample = false →
        s.written = [] ∧ (Bpf.readRuntimeStats s.cpus).sampledOutRoots = 0) := by
  intro s
  have hpaced := paced_run bcfg cfg raise adaptiveSample memoryLimit heapAlloc moves
  have haccounts := accounts_run bcfg cfg raise adaptiveSample memoryLimit heapAlloc moves
  refine ⟨hpaced.sampler, hpaced.current, hpaced.inBand.denominator, hpaced.chain, hpaced.last,
    hpaced.pushes, fun hoff => ?_⟩
  have hnoop : s.sampler = .noop := by
    rw [hpaced.sampler, hoff]
    exact RateSampler.run_noop raise _
  obtain ⟨hwritten, hzero⟩ := hpaced.sampledOut hnoop
  refine ⟨hwritten, ?_⟩
  rw [haccounts.stats]
  simp only [Bpf.RuntimeStats.total, Bpf.StatsTotal.plus, UInt64.zero_add]
  rw [hzero]
  rfl

/-- The windows of the sampler split the pushes, and so do those of the summaries. The loss rate
of a window is the share of its pushes that were lost, also when the counters wrap around; the
window that is printed counts its pushes. -/
theorem session_windows (moves : List (Move ncpu)) :
    let s := (start raise adaptiveSample memoryLimit ncpu heapAlloc).run bcfg cfg raise moves
    s.windows.flatMap Prod.fst ++ s.recent = s.pushes ∧
      (∀ w ∈ s.windows, w.1.length < 2 ^ 64 → w.2.lossRate = lostShare w.1) ∧
      s.printed.flatMap Prod.fst ++ s.unprinted = s.pushes ∧
      ∀ w ∈ s.printed, w.2.queued = UInt64.ofNat (w.1.countP Prod.snd) ∧
        w.2.dropped = UInt64.ofNat (w.1.countP fun p => !p.2) := by
  intro s
  have hwindowed := windowed_run bcfg cfg raise adaptiveSample memoryLimit heapAlloc moves
  refine ⟨hwindowed.windows, hwindowed.rates, hwindowed.printed, fun w hw => ?_⟩
  exact Counters.mk.inj (hwindowed.deltas w hw)

/-- Without adaptive sampling every summary of a session shows estimates that are the counts. -/
theorem session_estimates (moves : List (Move ncpu)) (range : EventManager.RangeOrder) :
    let s := (start raise false memoryLimit ncpu heapAlloc).run bcfg cfg raise moves
    ∀ sec ∈ EventManager.aggregateSections range s.system.manager, ∀ f ∈ sec.2,
      EventManager.Unscaled f := by
  intro s
  have hpaced := paced_run bcfg cfg raise false memoryLimit heapAlloc moves
  have haccounts := accounts_run bcfg cfg raise false memoryLimit heapAlloc moves
  have hnoop : s.sampler = .noop := by
    rw [hpaced.sampler]
    exact RateSampler.run_noop raise _
  have hsingle : ∀ a ∈ s.handled, EventManager.Single a.1 := by
    intro a ha hent
    have hmem : a.1 ∈ (s.pushes.filter Prod.snd).map Prod.fst := by
      rw [haccounts.delivered]
      exact List.mem_append_left _ (List.mem_map.mpr ⟨a, ha, rfl⟩)
    obtain ⟨p, hp, hfst⟩ := List.mem_map.mp hmem
    have hden := hpaced.pushes p (List.mem_of_mem_filter hp)
    rw [hfst, hent, (hpaced.sampledOut hnoop).1, List.mem_singleton] at hden
    rcases hden with hexit | hone
    · exact absurd hexit (by decide)
    · rw [hone]
      exact Nat.le_refl 1
  rw [haccounts.manager]
  exact EventManager.unscaled_handleAll cfg hsingle range

end

end Session

end Tracing

end GoFtrace
