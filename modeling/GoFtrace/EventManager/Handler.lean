import GoFtrace.EventManager.Aggregate

/-!
# Handling events

`Handle` of `internal/eventmanager/handler.go` with all it calls. It returns the new state
and what became of the event.
-/

namespace GoFtrace.EventManager

open Lib Uprobe

/-- What `Handle` depends on besides the state and the event. -/
structure Env where
  /-- Whether `learnType` succeeds for a type. -/
  learnOk : UInt64 → Bool
  order : MapOrder

/-! ## Flags -/

/-- `event.TraceFlags & flag != 0`. -/
def hasFlag (event : GoftraceEvent) (flag : UInt8) : Bool := event.traceFlags &&& flag ≠ 0

/-! ## Dropping -/

/-- `dropStack`. -/
def dropStack (cfg : Config) (m : EventManager) (k : TraceKey) : EventManager :=
  match m.pids.lookup k.pid with
  | none => m
  | some s =>
    let m := if cfg.adaptive then m.release (s.events k.goid).length else m
    m.setProcess k.pid (s.drop k.goid)

/-- `onGoroutineExit`. -/
def onGoroutineExit (cfg : Config) (m : EventManager) (k : TraceKey) : EventManager :=
  dropStack cfg { m with suppressed := m.suppressed.erase k } k

/-- `droppedStacks++` and `droppedIncomplete++`. -/
def countIncomplete (m : EventManager) : EventManager :=
  { m with
    droppedStacks := m.droppedStacks + 1
    droppedIncomplete := m.droppedIncomplete + 1 }

/-- `resetStaleSample`. -/
def resetStaleSample (cfg : Config) (m : EventManager) (event : GoftraceEvent) : EventManager :=
  if hasFlag event Bpf.traceStart && decide (0 < (m.events event.key).length) then
    countIncomplete (dropStack cfg m event.key)
  else m

/-- The rejection of an event over the memory budget. -/
def rejectOverBudget (cfg : Config) (m : EventManager) (event : GoftraceEvent) : EventManager :=
  let m := dropStack cfg m event.key
  let m :=
    if hasFlag event Bpf.traceEnd then m
    else
      let suppressed := if maxAggregateSuppressed ≤ m.suppressed.card then ∅ else m.suppressed
      { m with suppressed := insert event.key suppressed }
  { m with
    droppedStacks := m.droppedStacks + 1
    droppedOverBudget := m.droppedOverBudget + 1 }

/-- The end of a suppressed sample, or the start of the next one, lifts the suppression. -/
def unsuppress (m : EventManager) (event : GoftraceEvent) : EventManager :=
  if hasFlag event Bpf.traceStart || hasFlag event Bpf.traceEnd then
    { m with suppressed := m.suppressed.erase event.key }
  else m

/-- The admission control of `Add` in adaptive mode; `false` means that the event is
rejected. -/
def admission (cfg : Config) (m : EventManager) (event : GoftraceEvent) : EventManager × Bool :=
  if !cfg.adaptive then (m, true)
  else
    let m := resetStaleSample cfg m event
    if decide (event.key ∈ m.suppressed) && !hasFlag event Bpf.traceStart then
      (unsuppress m event, false)
    else
      let m := unsuppress m event
      if cfg.maxPendingEvents ≤ m.pendingEvents then (rejectOverBudget cfg m event, false)
      else (m, true)

/-! ## Arguments -/

/-- The leaves that `renderEventArgsRecipes` reads. -/
def leafData (event : GoftraceEvent) : List LeafData :=
  (event.args.toList.take event.argCount.toNat).map fun arg =>
    { data := arg.data, isNil := arg.isNil, unavailable := arg.readError }

/-- `renderEventArgsRecipes`. -/
def renderEventArgs (cfg : Config) (probe : Uprobe) (event : GoftraceEvent)
    (recipes : Recipes) : String :=
  let expected := probe.fetchArgs.length
  let actual := event.argCount.toNat
  if actual < expected ∨ Bpf.maxArgs < actual then "<unavailable>"
  else
    let leaves := leafData event
    if probe.values.isEmpty then
      ", ".intercalate <| (probe.fetchArgs.zip leaves).map fun (a, leaf) =>
        a.varname ++ "=" ++
          if leaf.unavailable then "<unavailable>" else a.sprintValue cfg.text leaf.data
    else
      let env : RenderEnv :=
        { text := cfg.text, resolveType := cfg.runtimeType
          hideUnexported := cfg.hideUnexported }
      renderValuesOpts env recipes probe.values leaves

/-- The slots whose types `learnInterfaceTypes` looks at: `(TypeIndex)` of the marked
leaves that the event carries. -/
def typeSlots (probe : Uprobe) (event : GoftraceEvent) : List Nat :=
  let n := min (min event.argCount.toNat Bpf.maxArgs) probe.fetchArgs.length
  probe.fetchArgs.filterMap fun a =>
    if a.ifaceData && decide (a.typeIndex < n) then some a.typeIndex else none

/-- `binary.LittleEndian.Uint64(event.Args[i].Data[:8])`. -/
def argWord (event : GoftraceEvent) (i : Nat) : UInt64 :=
  word (event.args.toList.getD i Bpf.ArgData.zero).data

/-- One turn of the loop of `learnInterfaceTypes`, for the type at `typeAddr`. -/
def learnType (cfg : Config) (env : Env) (m : EventManager) (typeAddr : UInt64) :
    EventManager :=
  if typeAddr = 0 ∨ m.learned typeAddr then m
  else
    match cfg.runtimeType typeAddr with
    | none => m
    | some t =>
      if env.learnOk typeAddr then
        { m with
          learned := Function.update m.learned typeAddr true
          typeRecipes := Function.update m.typeRecipes typeAddr (compileTypeRecipe t) }
      else m

/-- `learnInterfaceTypes`. The callback installs the recipe in the kernel under the same
key at the same time. -/
def learnInterfaceTypes (cfg : Config) (env : Env) (m : EventManager) (probe : Uprobe)
    (event : GoftraceEvent) : EventManager :=
  if !cfg.learns then m
  else (typeSlots probe event).foldl (fun m i => learnType cfg env m (argWord event i)) m

/-! ## Adding -/

/-- Whether an entry event repeats the last retained one after the stack has moved. -/
def isDuplicate (last : Event) (event : GoftraceEvent) : Bool :=
  last.goftraceEvent.location == event.location && last.goftraceEvent.ip == event.ip &&
    last.goftraceEvent.bp != event.callerBp

/-- Whether a return of the function at `entry` does not match the observed stack; only
aggregation asks. -/
def returnMismatch (cfg : Config) (stack : List UInt64) (entry : UInt64) : Bool :=
  cfg.aggregate && stack.head? != some entry

/-- `updateObservedStack`. -/
def updateObservedStack (cfg : Config) (s : PidState) (event : GoftraceEvent) (probe : Uprobe) :
    PidState :=
  let stack := s.stack event.goid
  if event.location = Bpf.entPoint then
    s.setStack event.goid (event.ip :: stack)
  else if event.location = Bpf.retPoint then
    if returnMismatch cfg stack (probe.address - probe.relOffset) then
      { s with invalid := insert event.goid s.invalid }
    else
      match stack with
      | [] => s
      | _ :: rest => s.setStack event.goid rest
  else s

/-- The part of `Add` that retains the event after the last one. -/
def appendEvent (cfg : Config) (env : Env) (m : EventManager) (event : GoftraceEvent)
    (probe : Uprobe) : EventManager :=
  let argString := renderEventArgs cfg probe event m.typeRecipes
  let m := learnInterfaceTypes cfg env m probe event
  let s := m.process event.pid
  let record : Event := { goftraceEvent := event, uprobe := probe, argString := argString }
  let s := s.setEvents event.goid (s.events event.goid ++ [record])
  let m := if cfg.adaptive then { m with pendingEvents := m.pendingEvents + 1 } else m
  m.setProcess event.pid (updateObservedStack cfg s event probe)

/-- The part of `Add` after the probe and the process state are found. -/
def retain (cfg : Config) (env : Env) (m : EventManager) (event : GoftraceEvent)
    (probe : Uprobe) : EventManager × Bool :=
  let s := m.process event.pid
  let events := s.events event.goid
  match events.getLast? with
  | none =>
    if event.location ≠ Bpf.entPoint then (m, false)
    else if cfg.adaptive && !hasFlag event Bpf.traceStart then (m, false)
    else (appendEvent cfg env m event probe, true)
  | some last =>
    if isDuplicate last event then
      let events := events.dropLast ++ [{ last with goftraceEvent := event }]
      (m.setProcess event.pid (s.setEvents event.goid events), true)
    else (appendEvent cfg env m event probe, true)

/-- `Add`. -/
def add (cfg : Config) (env : Env) (m : EventManager) (event : GoftraceEvent) :
    EventManager × Bool :=
  let (m, ok) := admission cfg m event
  if !ok then (m, false)
  else
    match cfg.getUprobe event.ip with
    | none => (m, false)
    | some probe => retain cfg env (m.pidState cfg event.pid) event probe

/-! ## Closing -/

/-- The test of `CloseStack`. -/
def closes (cfg : Config) (m : EventManager) (event : GoftraceEvent) : Bool :=
  if cfg.aggregate && cfg.adaptive then hasFlag event Bpf.traceEnd
  else (m.stack event.key).isEmpty && !(m.events event.key).isEmpty

/-- What became of an event. -/
inductive Outcome where
  /-- A goroutine exit. -/
  | exited
  | aborted
  /-- `Add` returned false. -/
  | rejected
  /-- The stack stays open. -/
  | kept
  /-- An incomplete stack was closed. -/
  | discarded
  /-- `AggregateStack` ran on these events and recorded these calls. -/
  | aggregated (events : List Event) (calls : List AggCall) (mismatch : Bool)
  /-- `PrintStack` ran on these events. -/
  | printed (events : List Event)
  /-- The drilldown names another function. -/
  | hidden
  /-- The address of the closing event does not resolve. -/
  | failed

/-- `AggregateStack`. -/
def aggregateStack (cfg : Config) (env : Env) (m : EventManager) (k : TraceKey) :
    EventManager × Outcome :=
  let m := m.pidState cfg k.pid
  let events := m.events k
  let (calls, mismatch) := aggregateLoop events []
  (m.setProcess k.pid ((m.process k.pid).recordAll env.order calls),
    .aggregated events calls mismatch)

/-- The aggregate branch of `Handle`. -/
def closeAggregate (cfg : Config) (env : Env) (m : EventManager) (k : TraceKey) :
    EventManager × Outcome :=
  let m := m.pidState cfg k.pid
  if m.invalid k || !(m.stack k).isEmpty then (countIncomplete m, .discarded)
  else aggregateStack cfg env m k

/-- The printing branch of `Handle`. -/
def closePrint (cfg : Config) (m : EventManager) (event : GoftraceEvent) :
    EventManager × Outcome :=
  let print := (m.pidState cfg event.pid, Outcome.printed (m.events event.key))
  if cfg.drilldown = "" then print
  else
    match Elf.resolveAddress cfg.symbols event.ip with
    | some (sym :: _, _) => if sym.name = cfg.drilldown then print else (m, .hidden)
    | _ => (m, .failed)

/-- The closing part of `Handle`; the stack is cleared whatever happens to it. -/
def closeStack (cfg : Config) (env : Env) (m : EventManager) (event : GoftraceEvent) :
    EventManager × Outcome :=
  let m := m.pidState cfg event.pid
  if !closes cfg m event then (m, .kept)
  else
    let (m, outcome) :=
      if cfg.aggregate then closeAggregate cfg env m event.key else closePrint cfg m event
    (dropStack cfg m event.key, outcome)

/-- `Handle`. -/
def handle (cfg : Config) (env : Env) (m : EventManager) (event : GoftraceEvent) :
    EventManager × Outcome :=
  if event.location = Bpf.goroutineExitPoint then (onGoroutineExit cfg m event.key, .exited)
  else if cfg.adaptive && hasFlag event Bpf.traceAbort then
    let m := dropStack cfg { m with suppressed := m.suppressed.erase event.key } event.key
    ({ m with
       droppedStacks := m.droppedStacks + 1
       droppedAborted := m.droppedAborted + 1 }, .aborted)
  else
    let (m, ok) := add cfg env m event
    if !ok then (m, .rejected) else closeStack cfg env m event

/-- A run of `Handle` over the events of a queue. -/
def handleAll (cfg : Config) : EventManager → List (GoftraceEvent × Env) →
    EventManager × List Outcome
  | m, [] => (m, [])
  | m, (event, env) :: rest =>
    let (m, outcome) := handle cfg env m event
    let (m, outcomes) := handleAll cfg m rest
    (m, outcome :: outcomes)

def sampleEnv : Env :=
  { learnOk := fun _ => false, order := { apply := id, perm := fun _ => .refl _ } }

/-- The events of a queue, all handled in the same surroundings. -/
def sampleArrivals (events : List GoftraceEvent) : List (GoftraceEvent × Env) :=
  events.map fun event => (event, sampleEnv)

end GoFtrace.EventManager
