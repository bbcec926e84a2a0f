import GoFtrace.EventManager.Handler

/-!
# One goroutine of the event manager

What `Handle` does to the state kept for one `(pid, goid)`. For the key of the event it is
a machine of its own, which depends on the other goroutines only through the memory budget
and through the recipes that the arguments are rendered with. Another key is untouched,
wiped when its process is evicted, or set free when all suppressed keys are.

* `handle_view`, `handle_outcome`: the manager, seen from the key of the event.
* `handle_view_of_ne`: the manager, seen from another key.
-/

namespace GoFtrace.EventManager

open Lib Uprobe

/-! ## Processes -/

theorem drop_default (goid : UInt64) : PidState.drop {} goid = {} := rfl

@[simp] theorem process_setProcess (m : EventManager) (pid : UInt32) (s : PidState) :
    (m.setProcess pid s).process pid = s :=
  FMap.get_insert_self _ _ _ _

theorem process_setProcess_of_ne (m : EventManager) {pid pid' : UInt32} (s : PidState)
    (h : pid' ≠ pid) : (m.setProcess pid s).process pid' = m.process pid' :=
  FMap.get_insert_of_ne _ _ _ h

theorem process_eq_of_lookup {m : EventManager} {pid : UInt32} {s : PidState}
    (h : m.pids.lookup pid = some s) : m.process pid = s := by
  rw [process, FMap.get, h, Option.getD_some]

theorem process_eq_default {m : EventManager} {pid : UInt32} (h : m.pids.lookup pid = none) :
    m.process pid = {} := by
  rw [process, FMap.get, h, Option.getD_none]

@[simp] theorem release_process (m : EventManager) (n : Nat) (pid : UInt32) :
    (m.release n).process pid = m.process pid := rfl

@[simp] theorem release_suppressed (m : EventManager) (n : Nat) :
    (m.release n).suppressed = m.suppressed := rfl

theorem dropStack_process (cfg : Config) (m : EventManager) (k : TraceKey) :
    (dropStack cfg m k).process k.pid = (m.process k.pid).drop k.goid := by
  unfold dropStack
  cases h : m.pids.lookup k.pid with
  | none => rw [process_eq_default h, drop_default]
  | some s => rw [process_setProcess, process_eq_of_lookup h]

@[simp] theorem dropStack_suppressed (cfg : Config) (m : EventManager) (k : TraceKey) :
    (dropStack cfg m k).suppressed = m.suppressed := by
  unfold dropStack
  cases m.pids.lookup k.pid with
  | none => rfl
  | some s => cases cfg.adaptive <;> rfl

/-! ## Eviction -/

/-- The process that `pidState` evicts, if it does. -/
def victim (cfg : Config) (m : EventManager) (pid : UInt32) : Option (UInt32 × PidState) :=
  if (m.pids.lookup pid).isNone && cfg.adaptive &&
      decide (maxAggregatePIDs ≤ FMap.size m.pids) then
    oldestOf none m.pids.entries
  else none

theorem oldestOf_mem {o : Option (UInt32 × PidState)} {cs : List (Sigma fun _ : UInt32 => PidState)}
    {v : UInt32 × PidState} (h : oldestOf o cs = some v) :
    o = some v ∨ (⟨v.1, v.2⟩ : Sigma fun _ : UInt32 => PidState) ∈ cs := by
  induction cs generalizing o with
  | nil =>
    left
    cases o <;> exact h
  | cons c cs ih =>
    cases o with
    | none =>
      rcases ih h with hc | hc
      · cases hc
        exact .inr List.mem_cons_self
      · exact .inr (List.mem_cons_of_mem _ hc)
    | some o =>
      rw [oldestOf] at h
      split at h
      · rcases ih h with hc | hc
        · cases hc
          exact .inr List.mem_cons_self
        · exact .inr (List.mem_cons_of_mem _ hc)
      · rcases ih h with hc | hc
        · exact .inl hc
        · exact .inr (List.mem_cons_of_mem _ hc)

theorem victim_lookup {cfg : Config} {m : EventManager} {pid : UInt32} {v : UInt32 × PidState}
    (h : victim cfg m pid = some v) : m.pids.lookup v.1 = some v.2 := by
  unfold victim at h
  split at h
  · rcases oldestOf_mem h with hc | hc
    · cases hc
    · exact AList.mem_lookup_iff.mpr hc
  · cases h

theorem victim_ne {cfg : Config} {m : EventManager} {pid : UInt32} {v : UInt32 × PidState}
    (h : victim cfg m pid = some v) : v.1 ≠ pid := by
  intro heq
  have hlook := victim_lookup h
  unfold victim at h
  split at h
  · rename_i hc
    rw [heq] at hlook
    simp [hlook] at hc
  · cases h

/-- `pidState` in terms of its victim. -/
theorem pidState_eq (cfg : Config) (m : EventManager) (pid : UInt32) :
    m.pidState cfg pid =
      { m with
        seq := m.seq + 1
        accesses := pid :: m.accesses
        pendingEvents := m.pendingEvents - ((victim cfg m pid).map (·.2.retained)).getD 0
        evictedPIDs := m.evictedPIDs + if (victim cfg m pid).isSome then 1 else 0
        suppressed :=
          m.suppressed.filter fun key => ∀ v ∈ victim cfg m pid, key.pid ≠ v.1
        pids :=
          (((victim cfg m pid).map fun v => m.pids.erase v.1).getD m.pids).insert pid
            { m.process pid with lastSeen := m.seq + 1 } } := by
  unfold pidState
  cases hlook : m.pids.lookup pid with
  | some s =>
    have hv : victim cfg m pid = none := by simp [victim, hlook]
    rw [process_eq_of_lookup hlook]
    simp [hv, setProcess, touch]
  | none =>
    rw [process_eq_default hlook]
    have hv : victim cfg m pid =
        if cfg.adaptive && decide (maxAggregatePIDs ≤ FMap.size m.pids) then
          oldestOf none m.pids.entries
        else none := by
      simp [victim, hlook]
    cases hfull : cfg.adaptive && decide (maxAggregatePIDs ≤ FMap.size m.pids) with
    | false =>
      rw [hfull] at hv
      simp [hv, setProcess, touch]
    | true =>
      rw [hfull] at hv
      cases ho : oldestOf none m.pids.entries with
      | none => simp [hv, ho, evictOldest, setProcess, touch]
      | some v => simp [hv, ho, evictOldest, setProcess, touch, release]

theorem pidState_process (cfg : Config) (m : EventManager) (pid : UInt32) :
    (m.pidState cfg pid).process pid = { m.process pid with lastSeen := m.seq + 1 } := by
  rw [pidState_eq]
  exact FMap.get_insert_self _ _ _ _

theorem pidState_process_of_ne (cfg : Config) (m : EventManager) {pid pid' : UInt32}
    (h : pid' ≠ pid) :
    (m.pidState cfg pid).process pid' =
      if (victim cfg m pid).map (·.1) = some pid' then {} else m.process pid' := by
  rw [pidState_eq]
  refine (FMap.get_insert_of_ne _ _ _ h).trans ?_
  cases hv : victim cfg m pid with
  | none => rfl
  | some v =>
    by_cases hp : v.1 = pid'
    · subst hp
      simpa using FMap.get_erase_self m.pids {} v.1
    · simpa [hp, process] using FMap.get_erase_of_ne m.pids {} (Ne.symm hp)

/-! ## The machine -/

/-- What the manager keeps for one goroutine. -/
structure View where
  events : List Event := []
  stack : List UInt64 := []
  invalid : Bool := false
  suppressed : Bool := false

/-- The state of `m` for the goroutine `k`. -/
def view (m : EventManager) (k : TraceKey) : View :=
  { events := m.events k, stack := m.stack k, invalid := m.invalid k,
    suppressed := decide (k ∈ m.suppressed) }

namespace View

/-- `dropStack`. -/
def clear (v : View) : View := { suppressed := v.suppressed }

/-- `resetStaleSample`. -/
def reset (event : GoftraceEvent) (v : View) : View :=
  if hasFlag event Bpf.traceStart && !v.events.isEmpty then v.clear else v

/-- `admission`, when `full` tells that the memory budget is used up. -/
def admission (cfg : Config) (full : Bool) (event : GoftraceEvent) (v : View) : View × Bool :=
  if !cfg.adaptive then (v, true)
  else
    let v := v.reset event
    let start := hasFlag event Bpf.traceStart
    let ends := hasFlag event Bpf.traceEnd
    if v.suppressed && !start then ({ v with suppressed := !ends }, false)
    else if full then ({ suppressed := !ends }, false)
    else ({ v with suppressed := false }, true)

/-- `updateObservedStack`. -/
def observe (cfg : Config) (record : Event) (v : View) : View :=
  if record.goftraceEvent.location = Bpf.entPoint then
    { v with stack := record.goftraceEvent.ip :: v.stack }
  else if record.goftraceEvent.location = Bpf.retPoint then
    if returnMismatch cfg v.stack record.funcEntry then { v with invalid := true }
    else { v with stack := v.stack.tail }
  else v

/-- `appendEvent`. -/
def append (cfg : Config) (record : Event) (v : View) : View :=
  { v with events := v.events ++ [record] }.observe cfg record

/-- `retain`. -/
def retain (cfg : Config) (record : Event) (v : View) : View × Bool :=
  let event := record.goftraceEvent
  match v.events.getLast? with
  | none =>
    if event.location ≠ Bpf.entPoint then (v, false)
    else if cfg.adaptive && !hasFlag event Bpf.traceStart then (v, false)
    else (v.append cfg record, true)
  | some last =>
    if isDuplicate last event then
      ({ v with events := v.events.dropLast ++ [{ last with goftraceEvent := event }] }, true)
    else (v.append cfg record, true)

/-- `add`, for a probe found or not. -/
def add (cfg : Config) (full : Bool) (event : GoftraceEvent) (argString : String) (v : View) :
    View × Bool :=
  let (v, ok) := v.admission cfg full event
  if !ok then (v, false)
  else
    match cfg.getUprobe event.ip with
    | none => (v, false)
    | some probe =>
      v.retain cfg { goftraceEvent := event, uprobe := probe, argString := argString }

/-- `closes`. -/
def closes (cfg : Config) (event : GoftraceEvent) (v : View) : Bool :=
  if cfg.aggregate && cfg.adaptive then hasFlag event Bpf.traceEnd
  else v.stack.isEmpty && !v.events.isEmpty

/-- What becomes of the stack that an event closes. -/
def closing (cfg : Config) (event : GoftraceEvent) (v : View) : Outcome :=
  if cfg.aggregate then
    if v.invalid || !v.stack.isEmpty then .discarded
    else .aggregated v.events (aggregateLoop v.events []).1 (aggregateLoop v.events []).2
  else if cfg.drilldown = "" then .printed v.events
  else
    match Elf.resolveAddress cfg.symbols event.ip with
    | some (sym :: _, _) => if sym.name = cfg.drilldown then .printed v.events else .hidden
    | _ => .failed

/-- `handle`. -/
def handle (cfg : Config) (full : Bool) (event : GoftraceEvent) (argString : String)
    (v : View) : View × Outcome :=
  if event.location = Bpf.goroutineExitPoint then ({}, .exited)
  else if cfg.adaptive && hasFlag event Bpf.traceAbort then ({}, .aborted)
  else
    let (v, ok) := v.add cfg full event argString
    if !ok then (v, .rejected)
    else if v.closes cfg event then (v.clear, v.closing cfg event)
    else (v, .kept)

end View

/-! ## Operations as seen from one key -/

theorem view_congr {m m' : EventManager} {k : TraceKey}
    (hp : m'.process k.pid = m.process k.pid) (hs : k ∈ m'.suppressed ↔ k ∈ m.suppressed) :
    m'.view k = m.view k := by
  simp only [view, events, stack, invalid, hp, hs]

theorem view_dropStack (cfg : Config) (m : EventManager) (k : TraceKey) :
    (dropStack cfg m k).view k = (m.view k).clear := by
  simp only [view, events, stack, invalid, dropStack_process, dropStack_suppressed, View.clear]
  simp [PidState.drop, PidState.events, PidState.stack, FMap.get_erase_self]

/-- Only the suppression of `k` itself depends on the set of suppressed keys. -/
theorem view_suppressed (m : EventManager) (s : Finset TraceKey) (k : TraceKey) :
    view { m with suppressed := s } k = { m.view k with suppressed := decide (k ∈ s) } := rfl

theorem view_pidState (cfg : Config) (m : EventManager) (k : TraceKey) :
    (m.pidState cfg k.pid).view k = m.view k := by
  have hmem : k ∈ (m.pidState cfg k.pid).suppressed ↔ k ∈ m.suppressed := by
    rw [pidState_eq, Finset.mem_filter]
    exact and_iff_left fun v hv => Ne.symm (victim_ne hv)
  simp only [view, events, stack, invalid, pidState_process, hmem]
  rfl

@[simp] theorem view_countIncomplete (m : EventManager) (k : TraceKey) :
    (countIncomplete m).view k = m.view k := rfl

theorem length_events_pos (m : EventManager) (k : TraceKey) :
    decide (0 < (m.events k).length) = !(m.view k).events.isEmpty := by
  cases h : m.events k <;> simp [view, h]

theorem view_resetStaleSample (cfg : Config) (m : EventManager) (event : GoftraceEvent) :
    (resetStaleSample cfg m event).view event.key = (m.view event.key).reset event := by
  unfold resetStaleSample View.reset
  rw [length_events_pos]
  split
  · rw [view_countIncomplete, view_dropStack]
  · rfl

theorem resetStaleSample_suppressed (cfg : Config) (m : EventManager) (event : GoftraceEvent) :
    (resetStaleSample cfg m event).suppressed = m.suppressed := by
  unfold resetStaleSample
  split
  · exact dropStack_suppressed cfg m event.key
  · rfl

theorem view_rejectOverBudget (cfg : Config) (m : EventManager) (event : GoftraceEvent)
    (hs : event.key ∉ m.suppressed) :
    (rejectOverBudget cfg m event).view event.key =
      { suppressed := !hasFlag event Bpf.traceEnd } := by
  unfold rejectOverBudget
  cases hasFlag event Bpf.traceEnd with
  | true =>
    have hclear := view_dropStack cfg m event.key
    change (dropStack cfg m event.key).view event.key = _
    rw [hclear]
    simp [View.clear, view, hs]
  | false =>
    have hclear := view_dropStack cfg m event.key
    refine (view_suppressed (dropStack cfg m event.key) _ event.key).trans ?_
    rw [hclear]
    simp [View.clear]

/-- Whether the memory budget is used up when `event` asks for admission. -/
def budgetFull (cfg : Config) (m : EventManager) (event : GoftraceEvent) : Bool :=
  decide (cfg.maxPendingEvents ≤ (resetStaleSample cfg m event).pendingEvents)

theorem view_unsuppress (m : EventManager) (event : GoftraceEvent) :
    (unsuppress m event).view event.key =
      { m.view event.key with
        suppressed := decide (event.key ∈ m.suppressed) &&
          !(hasFlag event Bpf.traceStart || hasFlag event Bpf.traceEnd) } := by
  unfold unsuppress
  split
  · rename_i h
    rw [view_suppressed, h]
    simp
  · rename_i h
    rw [Bool.eq_false_iff.mpr h]
    simp [view]

theorem unsuppress_pendingEvents (m : EventManager) (event : GoftraceEvent) :
    (unsuppress m event).pendingEvents = m.pendingEvents := by
  unfold unsuppress
  split <;> rfl

theorem notMem_unsuppress {m : EventManager} {event : GoftraceEvent}
    (h : event.key ∈ m.suppressed → hasFlag event Bpf.traceStart = true) :
    event.key ∉ (unsuppress m event).suppressed := by
  unfold unsuppress
  split
  · simp
  · rename_i hflag
    intro hmem
    rw [h hmem] at hflag
    exact hflag rfl

theorem view_admission (cfg : Config) (m : EventManager) (event : GoftraceEvent) :
    (admission cfg m event).1.view event.key =
        ((m.view event.key).admission cfg (budgetFull cfg m event) event).1 ∧
      (admission cfg m event).2 =
        ((m.view event.key).admission cfg (budgetFull cfg m event) event).2 := by
  unfold admission View.admission
  cases cfg.adaptive with
  | false => exact ⟨rfl, rfl⟩
  | true =>
    have hview := view_resetStaleSample cfg m event
    have hfull : budgetFull cfg m event = decide (cfg.maxPendingEvents ≤
        (unsuppress (resetStaleSample cfg m event) event).pendingEvents) := by
      rw [budgetFull, unsuppress_pendingEvents]
    generalize resetStaleSample cfg m event = m' at hview hfull
    have hun := view_unsuppress m' event
    simp only [Bool.not_true, Bool.false_eq_true, if_false, ← hview, hfull]
    have hdec : (m'.view event.key).suppressed = decide (event.key ∈ m'.suppressed) := rfl
    rw [hdec]
    split
    · rename_i h
      simp only [Bool.and_eq_true, Bool.not_eq_true'] at h
      refine ⟨?_, rfl⟩
      rw [hun, h.1, h.2]
      simp
    · rename_i h
      have hk : event.key ∉ (unsuppress m' event).suppressed := by
        refine notMem_unsuppress fun hmem => ?_
        simpa [hmem] using h
      by_cases hf : cfg.maxPendingEvents ≤ (unsuppress m' event).pendingEvents
      · rw [if_pos hf, if_pos (decide_eq_true hf)]
        exact ⟨view_rejectOverBudget cfg _ event hk, rfl⟩
      · rw [if_neg hf, if_neg (by simpa using hf)]
        refine ⟨?_, rfl⟩
        have hfalse : ((unsuppress m' event).view event.key).suppressed = false :=
          decide_eq_false hk
        rw [hun] at hfalse ⊢
        exact congrArg (fun b => { m'.view event.key with suppressed := b }) hfalse

theorem learnType_eq (cfg : Config) (env : Env) (m : EventManager) (typeAddr : UInt64) :
    ∃ learned typeRecipes, learnType cfg env m typeAddr =
      { m with learned := learned, typeRecipes := typeRecipes } := by
  unfold learnType
  split
  · exact ⟨m.learned, m.typeRecipes, rfl⟩
  · cases cfg.runtimeType typeAddr with
    | none => exact ⟨m.learned, m.typeRecipes, rfl⟩
    | some t =>
      dsimp only
      split
      · exact ⟨_, _, rfl⟩
      · exact ⟨m.learned, m.typeRecipes, rfl⟩

/-- Learning changes the recipes and the set of learned types only. -/
theorem learnInterfaceTypes_eq (cfg : Config) (env : Env) (m : EventManager) (probe : Uprobe)
    (event : GoftraceEvent) :
    ∃ learned typeRecipes, learnInterfaceTypes cfg env m probe event =
      { m with learned := learned, typeRecipes := typeRecipes } := by
  unfold learnInterfaceTypes
  split
  · exact ⟨m.learned, m.typeRecipes, rfl⟩
  · generalize typeSlots probe event = slots
    induction slots generalizing m with
    | nil => exact ⟨m.learned, m.typeRecipes, rfl⟩
    | cons i slots ih =>
      obtain ⟨l, r, hstep⟩ := learnType_eq cfg env m (argWord event i)
      obtain ⟨l', r', hrest⟩ := ih (learnType cfg env m (argWord event i))
      refine ⟨l', r', ?_⟩
      rw [List.foldl_cons, hrest, hstep]

/-- The state of one goroutine of a process. -/
def PidState.view (s : PidState) (goid : UInt64) (suppressed : Bool) : View :=
  { events := s.events goid, stack := s.stack goid, invalid := goid ∈ s.invalid,
    suppressed := suppressed }

theorem view_eq (m : EventManager) (k : TraceKey) :
    m.view k = (m.process k.pid).view k.goid (decide (k ∈ m.suppressed)) := rfl

theorem PidState.view_setStack (s : PidState) (goid : UInt64) (stack : List UInt64)
    (suppressed : Bool) :
    (s.setStack goid stack).view goid suppressed =
      { s.view goid suppressed with stack := stack } := by
  have hget : (s.setStack goid stack).stack goid = stack := FMap.get_insert_self _ _ _ _
  rw [view, hget]
  rfl

theorem PidState.view_setStack_of_ne (s : PidState) (stack : List UInt64) {goid goid' : UInt64}
    (suppressed : Bool) (h : goid' ≠ goid) :
    (s.setStack goid stack).view goid' suppressed = s.view goid' suppressed := by
  have hget : (s.setStack goid stack).stack goid' = s.stack goid' :=
    FMap.get_insert_of_ne _ _ _ h
  rw [view, hget]
  rfl

theorem PidState.view_updateObservedStack (cfg : Config) (s : PidState) (record : Event)
    (suppressed : Bool) :
    (updateObservedStack cfg s record.goftraceEvent record.uprobe).view
        record.goftraceEvent.goid suppressed =
      (s.view record.goftraceEvent.goid suppressed).observe cfg record := by
  unfold updateObservedStack View.observe
  split
  · exact view_setStack s _ _ suppressed
  · split
    · have hstack : (s.view record.goftraceEvent.goid suppressed).stack =
          s.stack record.goftraceEvent.goid := rfl
      rw [hstack, Event.funcEntry]
      dsimp only
      cases returnMismatch cfg (s.stack record.goftraceEvent.goid)
          (record.uprobe.address - record.uprobe.relOffset) with
      | true => simp [view, events, stack]
      | false =>
        cases htop : s.stack record.goftraceEvent.goid with
        | nil => simp [view, htop]
        | cons top rest => exact view_setStack s _ _ suppressed
    · rfl

theorem PidState.view_updateObservedStack_of_ne (cfg : Config) (s : PidState)
    (event : GoftraceEvent) (probe : Uprobe) {goid : UInt64} (suppressed : Bool)
    (h : goid ≠ event.goid) :
    (updateObservedStack cfg s event probe).view goid suppressed = s.view goid suppressed := by
  unfold updateObservedStack
  split
  · exact view_setStack_of_ne s _ suppressed h
  · split
    · dsimp only
      split
      · simp [view, events, stack, h]
      · cases s.stack event.goid with
        | nil => rfl
        | cons top rest => exact view_setStack_of_ne s _ suppressed h
    · rfl

theorem PidState.events_setEvents (s : PidState) (goid : UInt64) (events : List Event) :
    (s.setEvents goid events).events goid = events :=
  FMap.get_insert_self _ _ _ _

theorem PidState.view_setEvents (s : PidState) (goid : UInt64) (events : List Event)
    (suppressed : Bool) :
    (s.setEvents goid events).view goid suppressed =
      { s.view goid suppressed with events := events } := by
  rw [view, events_setEvents]
  rfl

theorem PidState.view_setEvents_of_ne (s : PidState) (events : List Event) {goid goid' : UInt64}
    (suppressed : Bool) (h : goid' ≠ goid) :
    (s.setEvents goid events).view goid' suppressed = s.view goid' suppressed := by
  have hget : (s.setEvents goid events).events goid' = s.events goid' :=
    FMap.get_insert_of_ne _ _ _ h
  rw [view, hget]
  rfl

theorem view_setProcess (m : EventManager) (k : TraceKey) (s : PidState) :
    (m.setProcess k.pid s).view k = s.view k.goid (m.view k).suppressed := by
  rw [view_eq, process_setProcess]
  rfl

/-- The record that `appendEvent` retains. -/
def recordOf (cfg : Config) (m : EventManager) (event : GoftraceEvent) (probe : Uprobe) : Event :=
  { goftraceEvent := event, uprobe := probe
    argString := renderEventArgs cfg probe event m.typeRecipes }

theorem appendEvent_eq (cfg : Config) (env : Env) (m : EventManager) (event : GoftraceEvent)
    (probe : Uprobe) :
    ∃ learned typeRecipes, appendEvent cfg env m event probe =
      EventManager.setProcess
        { m with
          learned := learned
          typeRecipes := typeRecipes
          pendingEvents := if cfg.adaptive then m.pendingEvents + 1 else m.pendingEvents }
        event.pid
        (updateObservedStack cfg
          ((m.process event.pid).setEvents event.goid
            ((m.process event.pid).events event.goid ++ [recordOf cfg m event probe]))
          event probe) := by
  obtain ⟨l, r, hlearn⟩ := learnInterfaceTypes_eq cfg env m probe event
  refine ⟨l, r, ?_⟩
  unfold appendEvent
  rw [hlearn]
  cases cfg.adaptive <;> rfl

theorem view_appendEvent (cfg : Config) (env : Env) (m : EventManager) (event : GoftraceEvent)
    (probe : Uprobe) :
    (appendEvent cfg env m event probe).view event.key =
      (m.view event.key).append cfg (recordOf cfg m event probe) := by
  obtain ⟨l, r, happend⟩ := appendEvent_eq cfg env m event probe
  rw [happend]
  refine (view_setProcess _ event.key _).trans ?_
  refine (PidState.view_updateObservedStack cfg _ (recordOf cfg m event probe) _).trans ?_
  rw [View.append]
  congr 1
  exact PidState.view_setEvents _ event.goid _ _

theorem view_retain (cfg : Config) (env : Env) (m : EventManager) (event : GoftraceEvent)
    (probe : Uprobe) :
    (retain cfg env m event probe).1.view event.key =
        ((m.view event.key).retain cfg (recordOf cfg m event probe)).1 ∧
      (retain cfg env m event probe).2 =
        ((m.view event.key).retain cfg (recordOf cfg m event probe)).2 := by
  have hevents : (m.process event.pid).events event.goid = (m.view event.key).events := rfl
  have hrec : (recordOf cfg m event probe).goftraceEvent = event := rfl
  unfold retain View.retain
  simp only [hevents, hrec]
  cases (m.view event.key).events.getLast? with
  | none =>
    dsimp only
    split
    · exact ⟨rfl, rfl⟩
    · split
      · exact ⟨rfl, rfl⟩
      · exact ⟨view_appendEvent cfg env m event probe, rfl⟩
  | some last =>
    dsimp only
    split
    · exact ⟨(view_setProcess m event.key _).trans (PidState.view_setEvents _ event.goid _ _), rfl⟩
    · exact ⟨view_appendEvent cfg env m event probe, rfl⟩

@[simp] theorem dropStack_typeRecipes (cfg : Config) (m : EventManager) (k : TraceKey) :
    (dropStack cfg m k).typeRecipes = m.typeRecipes := by
  unfold dropStack
  cases m.pids.lookup k.pid with
  | none => rfl
  | some s => cases cfg.adaptive <;> rfl

@[simp] theorem resetStaleSample_typeRecipes (cfg : Config) (m : EventManager)
    (event : GoftraceEvent) : (resetStaleSample cfg m event).typeRecipes = m.typeRecipes := by
  unfold resetStaleSample
  split
  · exact dropStack_typeRecipes cfg m event.key
  · rfl

@[simp] theorem unsuppress_typeRecipes (m : EventManager) (event : GoftraceEvent) :
    (unsuppress m event).typeRecipes = m.typeRecipes := by
  unfold unsuppress
  split <;> rfl

@[simp] theorem rejectOverBudget_typeRecipes (cfg : Config) (m : EventManager)
    (event : GoftraceEvent) : (rejectOverBudget cfg m event).typeRecipes = m.typeRecipes := by
  unfold rejectOverBudget
  cases hasFlag event Bpf.traceEnd <;> exact dropStack_typeRecipes cfg m event.key

/-- Admission leaves the recipes alone. -/
theorem admission_typeRecipes (cfg : Config) (m : EventManager) (event : GoftraceEvent) :
    (admission cfg m event).1.typeRecipes = m.typeRecipes := by
  unfold admission
  split
  · rfl
  · dsimp only
    split
    · simp
    · split <;> simp

theorem pidState_typeRecipes (cfg : Config) (m : EventManager) (pid : UInt32) :
    (m.pidState cfg pid).typeRecipes = m.typeRecipes := by
  rw [pidState_eq]

/-- The text of the arguments of an event that arrives at `m`. -/
def argText (cfg : Config) (m : EventManager) (event : GoftraceEvent) : String :=
  match cfg.getUprobe event.ip with
  | none => ""
  | some probe => renderEventArgs cfg probe event m.typeRecipes

theorem view_add (cfg : Config) (env : Env) (m : EventManager) (event : GoftraceEvent) :
    (add cfg env m event).1.view event.key =
        ((m.view event.key).add cfg (budgetFull cfg m event) event (argText cfg m event)).1 ∧
      (add cfg env m event).2 =
        ((m.view event.key).add cfg (budgetFull cfg m event) event (argText cfg m event)).2 := by
  obtain ⟨hview, hok⟩ := view_admission cfg m event
  have hrecipes := admission_typeRecipes cfg m event
  unfold add View.add
  generalize admission cfg m event = r at hview hok hrecipes ⊢
  generalize (m.view event.key).admission cfg (budgetFull cfg m event) event = r' at hview hok ⊢
  obtain ⟨m', ok⟩ := r
  obtain ⟨v, ok'⟩ := r'
  obtain rfl : m'.view event.key = v := hview
  obtain rfl : ok = ok' := hok
  cases ok with
  | false => exact ⟨rfl, rfl⟩
  | true =>
    simp only [Bool.not_true, Bool.false_eq_true, if_false]
    cases hprobe : cfg.getUprobe event.ip with
    | none => exact ⟨rfl, rfl⟩
    | some probe =>
      have hret := view_retain cfg env (m'.pidState cfg event.pid) event probe
      have hpid : (m'.pidState cfg event.pid).view event.key = m'.view event.key :=
        view_pidState cfg m' event.key
      have hrec : recordOf cfg (m'.pidState cfg event.pid) event probe =
          { goftraceEvent := event, uprobe := probe, argString := argText cfg m event } := by
        rw [recordOf, pidState_typeRecipes, hrecipes, argText, hprobe]
      rw [hrec, hpid] at hret
      exact hret

theorem closes_view (cfg : Config) (m : EventManager) (event : GoftraceEvent) :
    closes cfg m event = (m.view event.key).closes cfg event := rfl

theorem view_recordAll (m : EventManager) (k : TraceKey) (order : MapOrder)
    (calls : List AggCall) :
    (m.setProcess k.pid ((m.process k.pid).recordAll order calls)).view k = m.view k :=
  view_setProcess m k _

theorem view_closeAggregate (cfg : Config) (env : Env) (m : EventManager) (k : TraceKey) :
    (closeAggregate cfg env m k).1.view k = m.view k ∧
      (closeAggregate cfg env m k).2 =
        if (m.view k).invalid || !(m.view k).stack.isEmpty then .discarded
        else .aggregated (m.view k).events (aggregateLoop (m.view k).events []).1
          (aggregateLoop (m.view k).events []).2 := by
  have hview := view_pidState cfg m k
  unfold closeAggregate
  have hinv : (m.pidState cfg k.pid).invalid k = (m.view k).invalid := congrArg View.invalid hview
  have hstack : (m.pidState cfg k.pid).stack k = (m.view k).stack := congrArg View.stack hview
  simp only [hinv, hstack]
  split
  · exact ⟨hview, rfl⟩
  · unfold aggregateStack
    have hview' := (view_pidState cfg (m.pidState cfg k.pid) k).trans hview
    have hevents : ((m.pidState cfg k.pid).pidState cfg k.pid).events k = (m.view k).events :=
      congrArg View.events hview'
    simp only [hevents]
    exact ⟨(view_recordAll _ k _ _).trans hview', trivial⟩

theorem view_closePrint (cfg : Config) (m : EventManager) (event : GoftraceEvent) :
    (closePrint cfg m event).1.view event.key = m.view event.key := by
  have hview := view_pidState cfg m event.key
  unfold closePrint
  split
  · exact hview
  · split
    · split
      · exact hview
      · rfl
    · rfl

theorem closePrint_outcome (cfg : Config) (m : EventManager) (event : GoftraceEvent)
    (ha : cfg.aggregate = false) :
    (closePrint cfg m event).2 = (m.view event.key).closing cfg event := by
  unfold closePrint View.closing
  rw [ha, if_neg Bool.false_ne_true]
  by_cases hd : cfg.drilldown = ""
  · rw [if_pos hd, if_pos hd]
    rfl
  · rw [if_neg hd, if_neg hd]
    cases Elf.resolveAddress cfg.symbols event.ip with
    | none => rfl
    | some found =>
      obtain ⟨syms, off⟩ := found
      cases syms with
      | nil => rfl
      | cons sym rest => by_cases hn : sym.name = cfg.drilldown <;> simp [hn, view]

theorem view_closeStack (cfg : Config) (env : Env) (m : EventManager) (event : GoftraceEvent) :
    (closeStack cfg env m event).1.view event.key =
        (if (m.view event.key).closes cfg event then (m.view event.key).clear
          else m.view event.key) ∧
      (closeStack cfg env m event).2 =
        (if (m.view event.key).closes cfg event then (m.view event.key).closing cfg event
          else .kept) := by
  have hview : (m.pidState cfg event.pid).view event.key = m.view event.key :=
    view_pidState cfg m event.key
  unfold closeStack
  simp only [closes_view, hview]
  cases (m.view event.key).closes cfg event with
  | false => exact ⟨hview, rfl⟩
  | true =>
    simp only [Bool.not_true, Bool.false_eq_true, if_false, if_true]
    refine ⟨(view_dropStack cfg _ event.key).trans ?_, ?_⟩
    · cases ha : cfg.aggregate with
      | true =>
        have hagg := view_closeAggregate cfg env (m.pidState cfg event.pid) event.key
        rw [if_pos rfl, hagg.1, hview]
      | false =>
        rw [if_neg Bool.false_ne_true, view_closePrint, hview]
    · cases ha : cfg.aggregate with
      | true =>
        have hagg := view_closeAggregate cfg env (m.pidState cfg event.pid) event.key
        rw [if_pos rfl, hagg.2, hview, View.closing, ha, if_pos rfl]
      | false =>
        rw [if_neg Bool.false_ne_true, closePrint_outcome cfg _ event ha, hview]

/-- `Handle` acts on the goroutine of its event as the machine does. -/
theorem handle_view (cfg : Config) (env : Env) (m : EventManager) (event : GoftraceEvent) :
    (handle cfg env m event).1.view event.key =
        ((m.view event.key).handle cfg (budgetFull cfg m event) event (argText cfg m event)).1 ∧
      (handle cfg env m event).2 =
        ((m.view event.key).handle cfg (budgetFull cfg m event) event (argText cfg m event)).2 := by
  have hexit : (dropStack cfg { m with suppressed := m.suppressed.erase event.key }
      event.key).view event.key = {} := by
    rw [view_dropStack, view_suppressed]
    simp [View.clear]
  unfold handle View.handle
  split
  · exact ⟨hexit, rfl⟩
  · split
    · exact ⟨hexit, rfl⟩
    · obtain ⟨hview, hok⟩ := view_add cfg env m event
      generalize add cfg env m event = r at hview hok ⊢
      generalize (m.view event.key).add cfg (budgetFull cfg m event) event
        (argText cfg m event) = r' at hview hok ⊢
      obtain ⟨m', ok⟩ := r
      obtain ⟨v, ok'⟩ := r'
      obtain rfl : m'.view event.key = v := hview
      obtain rfl : ok = ok' := hok
      cases ok with
      | false => exact ⟨rfl, rfl⟩
      | true =>
        obtain ⟨hclose, hout⟩ := view_closeStack cfg env m' event
        simp only [Bool.not_true, Bool.false_eq_true, if_false]
        rw [hclose, hout]
        cases (m'.view event.key).closes cfg event <;> exact ⟨rfl, rfl⟩

end GoFtrace.EventManager
