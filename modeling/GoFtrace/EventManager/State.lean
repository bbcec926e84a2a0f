import GoFtrace.Bpf.Event
import GoFtrace.Elf.Symtab
import GoFtrace.Lib.FMap
import GoFtrace.Uprobe.Uprobe
import GoFtrace.Uprobe.Value

/-!
# The event manager's state

`internal/eventmanager/eventmanager.go`: the per-process stacks, the suppressed samples
and the aggregation counters, with the least-recently-used eviction of `pidState`.
-/

namespace GoFtrace

namespace EventManager

open Lib Uprobe

/-! ## Constants -/

/-- `maxAggregatePIDs`. -/
def maxAggregatePIDs : Nat := 64

/-- `maxAggregateRetvals`. -/
def maxAggregateRetvals : Nat := 64

/-- `maxAggregateSuppressed`. -/
def maxAggregateSuppressed : Nat := 10000

/-- `estimatedEventBytes` and `aggEventBudgetDiv`. -/
def estimatedEventBytes : Nat := 2048
def aggEventBudgetDiv : Nat := 4

/-! ## Events and counters -/

abbrev GoftraceEvent := Bpf.Event

/-- `traceKey`. -/
abbrev TraceKey := Bpf.GoidKey

/-- `Event`: a retained event with its probe and its rendered arguments. -/
structure Event where
  goftraceEvent : GoftraceEvent
  uprobe : Uprobe
  argString : String

/-- `probe.Address - probe.RelOffset`: the entry of the probed function. -/
def Event.funcEntry (e : Event) : UInt64 := e.uprobe.address - e.uprobe.relOffset

/-- `retvalCount`. -/
structure RetvalCount where
  count : Nat
  weightedCount : Nat
  weightedError : Nat := 0
  deriving DecidableEq, Repr

/-- The edges of `latencyBuckets`, in nanoseconds. -/
def latencyEdges : List Int :=
  [1000, 10000, 100000, 1000000, 10000000, 100000000, 1000000000, 10000000000]

/-- `len(latencyBuckets)+1`. -/
def latencySlots : Nat := 9

/-- `funcAgg`. -/
structure FuncAgg where
  calls : Nat := 0
  weightedCalls : Nat := 0
  latencies : Vector Nat latencySlots := Vector.replicate latencySlots 0
  weightedLatencies : Vector Nat latencySlots := Vector.replicate latencySlots 0
  retvals : FMap String RetvalCount := ∅

/-- `pidState`. The head of a goroutine's stack is its top. -/
structure PidState where
  goEvents : FMap UInt64 (List Event) := ∅
  goEventStack : FMap UInt64 (List UInt64) := ∅
  invalid : Finset UInt64 := ∅
  lastSeen : Nat := 0
  agg : FMap String FuncAgg := ∅

namespace PidState

/-- `s.goEvents[goid]`. -/
def events (s : PidState) (goid : UInt64) : List Event := FMap.get s.goEvents [] goid

/-- `s.goEventStack[goid]`. -/
def stack (s : PidState) (goid : UInt64) : List UInt64 := FMap.get s.goEventStack [] goid

/-- The events retained for all goroutines. -/
def retained (s : PidState) : Nat := FMap.total List.length s.goEvents

/-- `s.goEvents[goid] = events`. -/
def setEvents (s : PidState) (goid : UInt64) (events : List Event) : PidState :=
  { s with goEvents := s.goEvents.insert goid events }

/-- `s.goEventStack[goid] = stack`. -/
def setStack (s : PidState) (goid : UInt64) (stack : List UInt64) : PidState :=
  { s with goEventStack := s.goEventStack.insert goid stack }

/-- The three `delete` calls of `dropStack`. -/
def drop (s : PidState) (goid : UInt64) : PidState :=
  { s with
    goEvents := s.goEvents.erase goid
    goEventStack := s.goEventStack.erase goid
    invalid := s.invalid.erase goid }

end PidState

/-! ## The manager -/

/-- The fields of `EventManager` that do not change once tracing runs. -/
structure Config where
  symbols : List Elf.Symbol := []
  /-- The probes given to `New`. -/
  uprobes : List Uprobe
  drilldown : String := ""
  aggregate : Bool
  hideUnexported : Bool := false
  adaptive : Bool
  maxPendingEvents : Nat
  text : GoText
  /-- `elf.RuntimeType`. -/
  runtimeType : TypeResolver
  /-- `SetTypeLearner` was called and there is an ELF file. -/
  learns : Bool

/-- `maxPendingEvents` of `New`. -/
def pendingBudget (adaptive : Bool) (memoryLimit : Nat) : Nat :=
  if adaptive then max 1 (memoryLimit / aggEventBudgetDiv / estimatedEventBytes) else 0

end EventManager

open EventManager Lib Uprobe in
/-- The fields of `EventManager` that events change. -/
structure EventManager where
  pids : FMap UInt32 PidState := ∅
  seq : Nat := 0
  pendingEvents : Nat := 0
  droppedStacks : Nat := 0
  droppedIncomplete : Nat := 0
  droppedAborted : Nat := 0
  droppedOverBudget : Nat := 0
  evictedPIDs : Nat := 0
  suppressed : Finset TraceKey := ∅
  typeRecipes : Recipes := fun _ => []
  learned : UInt64 → Bool := fun _ => false
  /-- For the record: the arguments of the calls of `pidState`, latest first. -/
  accesses : List UInt32 := []

namespace EventManager

open Lib Uprobe

/-- `m.pids[pid]`, with the empty state for a missing process. -/
def process (m : EventManager) (pid : UInt32) : PidState := FMap.get m.pids {} pid

def setProcess (m : EventManager) (pid : UInt32) (s : PidState) : EventManager :=
  { m with pids := m.pids.insert pid s }

/-- `m.pids[pid].goEvents[goid]`. -/
def events (m : EventManager) (k : TraceKey) : List Event := (m.process k.pid).events k.goid

/-- `m.pids[pid].goEventStack[goid]`. -/
def stack (m : EventManager) (k : TraceKey) : List UInt64 := (m.process k.pid).stack k.goid

/-- Whether `m.pids[pid].invalid[goid]` is set. -/
def invalid (m : EventManager) (k : TraceKey) : Bool := k.goid ∈ (m.process k.pid).invalid

/-- The saturating `m.pendingEvents -= released`: subtraction stops at zero. -/
def release (m : EventManager) (released : Nat) : EventManager :=
  { m with pendingEvents := m.pendingEvents - released }

/-! ## Processes -/

/-- The search of `pidState` for the process with the smallest `lastSeen`. -/
def oldestOf : Option (UInt32 × PidState) → List (Sigma fun _ : UInt32 => PidState) →
    Option (UInt32 × PidState)
  | oldest, [] => oldest
  | none, c :: cs => oldestOf (some (c.1, c.2)) cs
  | some o, c :: cs =>
    oldestOf (if c.2.lastSeen < o.2.lastSeen then some (c.1, c.2) else some o) cs

/-- The eviction in `pidState`. -/
def evictOldest (m : EventManager) : EventManager :=
  match oldestOf none m.pids.entries with
  | none => m
  | some (pid, s) =>
    let m := m.release s.retained
    { m with
      pids := m.pids.erase pid
      suppressed := m.suppressed.filter fun key => key.pid ≠ pid
      evictedPIDs := m.evictedPIDs + 1 }

/-- `m.seq++`. -/
def touch (m : EventManager) (pid : UInt32) : EventManager :=
  { m with seq := m.seq + 1, accesses := pid :: m.accesses }

/-- `pidState`: afterwards `pid` is present and was seen last. -/
def pidState (cfg : Config) (m : EventManager) (pid : UInt32) : EventManager :=
  match m.pids.lookup pid with
  | some s => (m.touch pid).setProcess pid { s with lastSeen := m.seq + 1 }
  | none =>
    let full := cfg.adaptive && decide (maxAggregatePIDs ≤ FMap.size m.pids)
    let m' := if full then (m.touch pid).evictOldest else m.touch pid
    m'.setProcess pid { lastSeen := m.seq + 1 }

/-! ## Probes -/

/-- `m.uprobes[fmt.Sprintf("%s+%d", name, offset)]`: the last probe stored under the
key. -/
def Config.uprobeAt (cfg : Config) (name : String) (offset : UInt64) : Option Uprobe :=
  (cfg.uprobes.filter fun u => u.funcname == name && u.relOffset == offset).getLast?

/-- `GetUprobe`. -/
def Config.getUprobe (cfg : Config) (ip : UInt64) : Option Uprobe :=
  match Elf.resolveAddress cfg.symbols ip with
  | none => none
  | some (syms, offset) => syms.findSome? fun sym => cfg.uprobeAt sym.name offset

/-! ## A sample -/

/-- Text functions for samples whose arguments are not rendered. -/
def sampleText : GoText :=
  { quote := fun _ => "", formatFloat32 := fun _ => "", formatFloat64 := fun _ => ""
    sprintFloat32 := fun _ => "", sprintFloat64 := fun _ => "", ofBytes := fun _ => ""
    isExported := fun _ => true }

/-- Two traced functions: `R` from 16 to 31 and `A` from 48 to 63. -/
def sampleConfig (aggregate : Bool) : Config :=
  { symbols := [{ name := "R", value := 16 }, { name := "A", value := 48 }]
    uprobes :=
      [{ funcname := "R", address := 16, relOffset := 0, location := .atEntry, wanted := true },
        { funcname := "R", address := 31, relOffset := 15, location := .atRet, wanted := true },
        { funcname := "A", address := 48, relOffset := 0, location := .atEntry },
        { funcname := "A", address := 63, relOffset := 15, location := .atRet }]
    aggregate := aggregate, adaptive := true, maxPendingEvents := 1024, text := sampleText
    runtimeType := fun _ => none, learns := false }

/-- The root entry of a sample of `pid`, and the return that ends it. -/
def sampleStart (pid : UInt32) : GoftraceEvent :=
  { goid := 1, pid := pid, ip := 16, bp := 4096, sampleDenominator := 1
    location := Bpf.entPoint, traceFlags := Bpf.traceStart }

def sampleEnd (pid : UInt32) : GoftraceEvent :=
  { goid := 1, pid := pid, ip := 31, timeNs := 500, sampleDenominator := 1
    location := Bpf.retPoint, traceFlags := Bpf.traceEnd }

end EventManager

end GoFtrace
