import GoFtrace.Bpf.Fetch
import Mathlib.Logic.Function.Basic

/-!
# Probe programs

`ent`, `ret` and `goroutine_exit` of `internal/bpf/ftrace.c` over the kernel maps. Each
program runs to its end before the next one touches the state of the same goroutine. The
results of the helpers (identifiers, clock, random number, map and queue updates) are
inputs of a hit.
-/

namespace GoFtrace.Bpf

open Lib (Memory)

/-! ## Maps and hits -/

/-- `CONFIG` and the maps that `Load` fills before the probes are attached. -/
structure Config where
  fetchArgs : Bool
  adaptiveSampling : Bool
  /-- The keys of `should_trace_rip`. -/
  shouldTraceRip : UInt64 → Bool
  shouldTraceRet : UInt64 → Option UInt64
  argRules : UInt64 → Option ArgRules

/-- The maps that change while the probes run. -/
structure Maps where
  shouldTraceGoid : GoidKey → Option TraceState := fun _ => none
  /-- `sample_config_map[0].denominator`. -/
  sampleDenominator : UInt32 := 0
  typeRecipes : UInt64 → Option TypeRecipe := fun _ => none
  eventQueue : List Event := []
  stats : RuntimeStats := {}

/-- One hit of a probe: the interrupted thread and what the helpers return. -/
structure Hit where
  goid : UInt64
  pid : UInt32
  regs : PtRegs
  user : UserMemory
  timeNs : UInt64
  /-- The word at `sp`, or `0` when it cannot be read. -/
  callerIp : UInt64
  /-- `bpf_get_prandom_u32()`. -/
  random : UInt32
  /-- `bpf_map_update_elem` of the trace state succeeds. -/
  insertOk : Bool
  /-- `bpf_map_push_elem` succeeds. -/
  pushOk : Bool

def Hit.key (h : Hit) : GoidKey := { pid := h.pid, goid := h.goid }

namespace Maps

def setState (m : Maps) (k : GoidKey) (st : TraceState) : Maps :=
  { m with shouldTraceGoid := Function.update m.shouldTraceGoid k (some st) }

def deleteState (m : Maps) (k : GoidKey) : Maps :=
  { m with shouldTraceGoid := Function.update m.shouldTraceGoid k none }

def count (m : Maps) (f : RuntimeStats → RuntimeStats) : Maps := { m with stats := f m.stats }

/-- `current_sample_denominator`. -/
def currentSampleDenominator (m : Maps) : UInt32 :=
  if m.sampleDenominator ≤ 1 then 1 else m.sampleDenominator

/-- `push_event`. -/
def pushEvent (m : Maps) (ok : Bool) (e : Event) : Maps :=
  if ok then
    { m with
      eventQueue := m.eventQueue ++ [e]
      stats := { m.stats with emittedEvents := m.stats.emittedEvents + 1 } }
  else
    { m with stats := { m.stats with droppedEvents := m.stats.droppedEvents + 1 } }

@[simp] theorem setState_self (m : Maps) (k : GoidKey) (st : TraceState) :
    (m.setState k st).shouldTraceGoid k = some st := by
  simp [setState]

@[simp] theorem setState_of_ne (m : Maps) {k k' : GoidKey} (st : TraceState) (h : k' ≠ k) :
    (m.setState k st).shouldTraceGoid k' = m.shouldTraceGoid k' := by
  simp [setState, h]

@[simp] theorem deleteState_self (m : Maps) (k : GoidKey) :
    (m.deleteState k).shouldTraceGoid k = none := by
  simp [deleteState]

@[simp] theorem deleteState_of_ne (m : Maps) {k k' : GoidKey} (h : k' ≠ k) :
    (m.deleteState k).shouldTraceGoid k' = m.shouldTraceGoid k' := by
  simp [deleteState, h]

@[simp] theorem count_shouldTraceGoid (m : Maps) (f : RuntimeStats → RuntimeStats) :
    (m.count f).shouldTraceGoid = m.shouldTraceGoid := rfl

@[simp] theorem pushEvent_shouldTraceGoid (m : Maps) (ok : Bool) (e : Event) :
    (m.pushEvent ok e).shouldTraceGoid = m.shouldTraceGoid := by
  cases ok <;> rfl

theorem setState_shouldTraceGoid (m : Maps) (k : GoidKey) (st : TraceState) :
    (m.setState k st).shouldTraceGoid = Function.update m.shouldTraceGoid k (some st) := rfl

theorem deleteState_shouldTraceGoid (m : Maps) (k : GoidKey) :
    (m.deleteState k).shouldTraceGoid = Function.update m.shouldTraceGoid k none := rfl

end Maps

/-- `should_sample`. -/
def shouldSample (denominator random : UInt32) : Bool :=
  denominator ≤ 1 || random % denominator == 0

/-! ## Programs -/

/-- The fetch part shared by `ent` and `ret`. -/
def fetchInto (cfg : Config) (m : Maps) (h : Hit) (e : Event) : Event :=
  if cfg.fetchArgs then
    match cfg.argRules e.ip with
    | none => e
    | some rules => e.withLeaves (fetchArgs m.typeRecipes h.regs h.user rules)
  else e

/-- Whether this event is the one past `MAX_SAMPLE_EVENTS`. -/
def TraceState.overrun (st : TraceState) (cfg : Config) : Bool :=
  cfg.adaptiveSampling && decide (maxSampleEvents < st.eventCount + 1)

/-- `duplicate` of `ent`. -/
def TraceState.duplicate (st : TraceState) (ip callerBp : UInt64) : Bool :=
  st.lastIp == ip && st.lastBp != callerBp

/-- The trace state after an entry event of a traced goroutine. -/
def TraceState.entered (st : TraceState) (cfg : Config) (e : Event) : TraceState :=
  let deeper := !st.overrun cfg && cfg.adaptiveSampling && cfg.shouldTraceRip e.ip &&
    st.rootIp == e.ip && !st.duplicate e.ip e.callerBp
  { st with
    eventCount := st.eventCount + 1
    rootDepth := if deeper then st.rootDepth + 1 else st.rootDepth
    lastIp := e.ip
    lastBp := e.bp }

/-- Whether a return event at `ip` is a return of the root function. -/
def TraceState.atRootRet (st : TraceState) (cfg : Config) (ip : UInt64) : Bool :=
  !st.overrun cfg && cfg.adaptiveSampling && cfg.shouldTraceRet ip == some st.rootIp

/-- `trace_end` of `ret`. -/
def TraceState.ends (st : TraceState) (cfg : Config) (ip : UInt64) : Bool :=
  st.atRootRet cfg ip && decide (st.rootDepth ≤ 1)

/-- The trace state after a return event of a traced goroutine. -/
def TraceState.returned (st : TraceState) (cfg : Config) (ip : UInt64) : TraceState :=
  { st with
    eventCount := st.eventCount + 1
    rootDepth :=
      if st.atRootRet cfg ip && decide (1 < st.rootDepth) then st.rootDepth - 1
      else st.rootDepth
    lastIp := 0 }

def TraceState.abortFlag (st : TraceState) (cfg : Config) : UInt8 :=
  if st.overrun cfg then traceAbort else 0

/-- The event of `ent` before the trace state is looked up. -/
def Hit.entryEvent (h : Hit) : Event :=
  { goid := h.goid, pid := h.pid, ip := h.regs.ip, bp := h.regs.reg .sp - 8,
    callerBp := h.regs.reg .bp, callerIp := h.callerIp, timeNs := h.timeNs,
    location := entPoint }

/-- The event of `ret`, before the fetch. -/
def Hit.retEvent (h : Hit) : Event :=
  { goid := h.goid, pid := h.pid, ip := h.regs.ip, timeNs := h.timeNs, location := retPoint }

/-- The event of `goroutine_exit`. -/
def Hit.exitEvent (h : Hit) : Event :=
  { goid := h.goid, pid := h.pid, location := goroutineExitPoint }

/-- The state that a wanted root call starts with. -/
def TraceState.initial (e : Event) (denominator : UInt32) : TraceState :=
  { rootIp := e.ip, lastIp := e.ip, lastBp := e.bp, rootDepth := 1, eventCount := 1,
    sampleDenominator := denominator }

/-- The entry event of a root call that is admitted, before the fetch. -/
def rootEvent (cfg : Config) (denominator : UInt32) (h : Hit) : Event :=
  { h.entryEvent with
    sampleDenominator := denominator
    traceFlags := if cfg.adaptiveSampling then traceStart else 0 }

/-- The entry event of a traced goroutine, before the fetch. -/
def TraceState.entryEvent (st : TraceState) (cfg : Config) (h : Hit) : Event :=
  { h.entryEvent with
    sampleDenominator := st.sampleDenominator
    traceFlags := st.abortFlag cfg }

/-- The return event of a traced goroutine, before the fetch. -/
def TraceState.retEvent (st : TraceState) (cfg : Config) (h : Hit) : Event :=
  { h.retEvent with
    sampleDenominator := st.sampleDenominator
    traceFlags := if st.ends cfg h.regs.ip then traceEnd else st.abortFlag cfg }

/-- `aborted_roots++`, when this event overruns the sample. -/
def Maps.countAborted (m : Maps) (past : Bool) : Maps :=
  if past then m.count fun s => { s with abortedRoots := s.abortedRoots + 1 } else m

/-- `push_event(e)`, then `bpf_map_delete_elem` when the sample is over. -/
def finish (h : Hit) (m : Maps) (e : Event) (past : Bool) : Maps × Option Event :=
  let m := m.pushEvent h.pushOk e
  (if past then m.deleteState h.key else m, some e)

/-- `ent`. The second component is the event that `push_event` was called with. -/
def ent (cfg : Config) (h : Hit) (m : Maps) : Maps × Option Event :=
  match m.shouldTraceGoid h.key with
  | none =>
    if !cfg.shouldTraceRip h.regs.ip then (m, none)
    else
      let denominator := m.currentSampleDenominator
      let m := m.count fun s => { s with wantedRoots := s.wantedRoots + 1 }
      if !shouldSample denominator h.random then
        (m.count fun s => { s with sampledOutRoots := s.sampledOutRoots + 1 }, none)
      else if !h.insertOk then
        (m.count fun s => { s with stateInsertFailures := s.stateInsertFailures + 1 }, none)
      else
        let m := m.setState h.key (.initial h.entryEvent denominator)
        let m := m.count fun s => { s with admittedRoots := s.admittedRoots + 1 }
        finish h m (fetchInto cfg m h (rootEvent cfg denominator h)) false
  | some st =>
    let past := st.overrun cfg
    let m := m.setState h.key (st.entered cfg h.entryEvent)
    let m := m.countAborted past
    finish h m (fetchInto cfg m h (st.entryEvent cfg h)) past

/-- `ret`. -/
def ret (cfg : Config) (h : Hit) (m : Maps) : Maps × Option Event :=
  match m.shouldTraceGoid h.key with
  | none => (m, none)
  | some st =>
    let past := st.overrun cfg
    let m := m.setState h.key (st.returned cfg h.regs.ip)
    let m := m.countAborted past
    finish h m (fetchInto cfg m h (st.retEvent cfg h)) (st.ends cfg h.regs.ip || past)

/-- `goroutine_exit`. -/
def goroutineExit (h : Hit) (m : Maps) : Maps × Option Event :=
  match m.shouldTraceGoid h.key with
  | none => (m, none)
  | some _ => ((m.deleteState h.key).pushEvent h.pushOk h.exitEvent, some h.exitEvent)

/-! ## Runs -/

/-- One step of the kernel side: a probe hit, or an update of a map by userspace. -/
inductive Action where
  | ent (h : Hit)
  | ret (h : Hit)
  | goroutineExit (h : Hit)
  /-- `SetSampleDenominator`. -/
  | setSampleDenominator (denominator : UInt32)
  /-- `SetTypeRecipe`. -/
  | setTypeRecipe (typeAddr : UInt64) (recipe : TypeRecipe)

/-- `SetSampleDenominator`. -/
def Maps.setSampleDenominator (m : Maps) (denominator : UInt32) : Maps :=
  { m with sampleDenominator := if denominator = 0 then 1 else denominator }

def Maps.setTypeRecipe (m : Maps) (typeAddr : UInt64) (recipe : TypeRecipe) : Maps :=
  { m with typeRecipes := Function.update m.typeRecipes typeAddr (some recipe) }

def step (cfg : Config) (m : Maps) : Action → Maps × Option Event
  | .ent h => ent cfg h m
  | .ret h => ret cfg h m
  | .goroutineExit h => goroutineExit h m
  | .setSampleDenominator d => (m.setSampleDenominator d, none)
  | .setTypeRecipe a r => (m.setTypeRecipe a r, none)

/-! ## A sample -/

/-- Adaptive sampling of one function: its entry is at 16, its return at 31. -/
def sampleConfig : Config :=
  { fetchArgs := false, adaptiveSampling := true
    shouldTraceRip := fun ip => ip == 16
    shouldTraceRet := fun ip => if ip = 31 then some 16 else none
    argRules := fun _ => none }

/-- A hit of the first goroutine at `ip` that finds room everywhere. -/
def sampleHit (ip : UInt64) : Hit :=
  { goid := 1, pid := 1
    regs := { ip := ip, reg := fun _ => 4096 }
    user := { mem := fun _ => 0, fails := fun _ _ => false }
    timeNs := 0, callerIp := 0, random := 0, insertOk := true, pushOk := true }

end GoFtrace.Bpf
