import GoFtrace.Bpf.Protocol

/-!
# Runtime statistics

`runtime_stats_map` of `internal/bpf/ftrace.c`, a per-CPU map: each hit counts on its CPU, and
`ReadRuntimeStats` of `internal/bpf/bpf.go` adds the counters of all CPUs.

* `Tallied.step`: what the counters tell of the hits and the events so far.
* `PerCpu.Refines.step`: the counters of the CPUs add up to those of one counter for all.
-/

namespace GoFtrace.Bpf

/-! ## Sums of counters -/

/-- Two counters of each kind added. -/
def RuntimeStats.add (a b : RuntimeStats) : RuntimeStats where
  wantedRoots := a.wantedRoots + b.wantedRoots
  admittedRoots := a.admittedRoots + b.admittedRoots
  sampledOutRoots := a.sampledOutRoots + b.sampledOutRoots
  emittedEvents := a.emittedEvents + b.emittedEvents
  droppedEvents := a.droppedEvents + b.droppedEvents
  abortedRoots := a.abortedRoots + b.abortedRoots
  stateInsertFailures := a.stateInsertFailures + b.stateInsertFailures

instance : Add RuntimeStats := ⟨RuntimeStats.add⟩

instance : Zero RuntimeStats := ⟨{}⟩

theorem RuntimeStats.add_def (a b : RuntimeStats) : a + b = a.add b := rfl

theorem RuntimeStats.zero_def : (0 : RuntimeStats) = {} := rfl

instance : AddCommMonoid RuntimeStats where
  add_assoc a b c := by
    simp only [RuntimeStats.add_def, RuntimeStats.add, Nat.add_assoc]
  zero_add a := by
    simp only [RuntimeStats.add_def, RuntimeStats.add, RuntimeStats.zero_def, Nat.zero_add]
  add_zero a := rfl
  add_comm a b := by
    simp only [RuntimeStats.add_def, RuntimeStats.add, Nat.add_comm]
  nsmul := nsmulRec

/-- `RuntimeStats` of `bpf.go`. -/
structure StatsTotal where
  wantedRoots : UInt64 := 0
  admittedRoots : UInt64 := 0
  sampledOutRoots : UInt64 := 0
  emittedEvents : UInt64 := 0
  droppedEvents : UInt64 := 0
  abortedRoots : UInt64 := 0
  stateInsertFailures : UInt64 := 0
  deriving DecidableEq, Repr

/-- The body of the loop of `ReadRuntimeStats`. -/
def StatsTotal.plus (total : StatsTotal) (value : RuntimeStats) : StatsTotal where
  wantedRoots := total.wantedRoots + UInt64.ofNat value.wantedRoots
  admittedRoots := total.admittedRoots + UInt64.ofNat value.admittedRoots
  sampledOutRoots := total.sampledOutRoots + UInt64.ofNat value.sampledOutRoots
  emittedEvents := total.emittedEvents + UInt64.ofNat value.emittedEvents
  droppedEvents := total.droppedEvents + UInt64.ofNat value.droppedEvents
  abortedRoots := total.abortedRoots + UInt64.ofNat value.abortedRoots
  stateInsertFailures := total.stateInsertFailures + UInt64.ofNat value.stateInsertFailures

/-- `ReadRuntimeStats`. -/
def readRuntimeStats (values : List RuntimeStats) : StatsTotal := values.foldl .plus {}

/-- What `ReadRuntimeStats` makes of a single counter. -/
def RuntimeStats.total (s : RuntimeStats) : StatsTotal := StatsTotal.plus {} s

theorem plus_plus (total : StatsTotal) (a b : RuntimeStats) :
    (total.plus a).plus b = total.plus (a + b) := by
  simp only [StatsTotal.plus, RuntimeStats.add_def, RuntimeStats.add, UInt64.ofNat_add,
    UInt64.add_assoc]

theorem readRuntimeStats_eq (values : List RuntimeStats) :
    readRuntimeStats values = values.sum.total := by
  have hfold : ∀ total : StatsTotal, values.foldl .plus total = total.plus values.sum := by
    induction values with
    | nil =>
      intro total
      simp [StatsTotal.plus, RuntimeStats.zero_def]
    | cons a values ih =>
      intro total
      rw [List.foldl_cons, ih, plus_plus, List.sum_cons]
  exact hfold {}

/-! ## One step -/

/-- What `push_event` counts. -/
def RuntimeStats.pushed (ok : Bool) (s : RuntimeStats) : RuntimeStats :=
  if ok then { s with emittedEvents := s.emittedEvents + 1 }
  else { s with droppedEvents := s.droppedEvents + 1 }

/-- What a step counts, at a sample denominator, for the event that it attempts. -/
inductive StatsStep (cfg : Config) (denominator : UInt32) (ok : Bool) (s : RuntimeStats) :
    Option Event → RuntimeStats → Prop
  | quiet : StatsStep cfg denominator ok s none s
  | sampledOut (hden : denominator ≠ 1) : StatsStep cfg denominator ok s none
      { s with wantedRoots := s.wantedRoots + 1, sampledOutRoots := s.sampledOutRoots + 1 }
  | insertFailure : StatsStep cfg denominator ok s none
      { s with wantedRoots := s.wantedRoots + 1, stateInsertFailures := s.stateInsertFailures + 1 }
  | start {e : Event} (hflags : e.traceFlags = if cfg.adaptiveSampling then traceStart else 0) :
      StatsStep cfg denominator ok s (some e) (RuntimeStats.pushed ok
        { s with wantedRoots := s.wantedRoots + 1, admittedRoots := s.admittedRoots + 1 })
  | event {e : Event} (hflags : e.traceFlags = 0 ∨ e.traceFlags = traceEnd) :
      StatsStep cfg denominator ok s (some e) (s.pushed ok)
  | abort {e : Event} (hflags : e.traceFlags = traceAbort) :
      StatsStep cfg denominator ok s (some e) (RuntimeStats.pushed ok
        { s with abortedRoots := s.abortedRoots + 1 })

theorem pushEvent_stats (m : Maps) (ok : Bool) (e : Event) :
    (m.pushEvent ok e).stats = m.stats.pushed ok := by
  cases ok <;> rfl

theorem finish_stats (h : Hit) (m : Maps) (e : Event) (past : Bool) :
    (finish h m e past).1.stats = m.stats.pushed h.pushOk := by
  rw [← pushEvent_stats m h.pushOk e]
  cases past <;> rfl

theorem countAborted_stats (m : Maps) (past : Bool) :
    (m.countAborted past).stats =
      if past then { m.stats with abortedRoots := m.stats.abortedRoots + 1 } else m.stats := by
  cases past <;> rfl

theorem traceFlags_fetchInto (cfg : Config) (m : Maps) (h : Hit) (e : Event) :
    (fetchInto cfg m h e).traceFlags = e.traceFlags := by
  have hbare := congrArg Event.traceFlags (bare_fetchInto cfg m h e)
  exact hbare

/-- An event of a traced goroutine is counted as aborted if it carries the flag. -/
theorem statsStep_past {cfg : Config} {d : UInt32} {ok past : Bool} {s : RuntimeStats} {e : Event}
    (h : e.traceFlags = traceEnd ∧ past = false ∨ e.traceFlags = if past then traceAbort else 0) :
    StatsStep cfg d ok s (some e) (RuntimeStats.pushed ok
      (if past then { s with abortedRoots := s.abortedRoots + 1 } else s)) := by
  rcases h with ⟨hflags, rfl⟩ | hflags
  · exact .event (.inr hflags)
  · cases past with
    | true => exact .abort hflags
    | false => exact .event (.inl hflags)

theorem step_stats (cfg : Config) (m : Maps) (a : Action) :
    StatsStep cfg m.currentSampleDenominator a.pushOk m.stats (step cfg m a).2
      (step cfg m a).1.stats := by
  cases a with
  | ent h =>
    change StatsStep cfg m.currentSampleDenominator h.pushOk m.stats (ent cfg h m).2
      (ent cfg h m).1.stats
    unfold ent
    split
    · split
      · exact .quiet
      · dsimp only
        split
        · rename_i hsample
          refine .sampledOut fun hden => ?_
          rw [hden] at hsample
          exact absurd hsample (by simp [shouldSample])
        · split
          · exact .insertFailure
          · rw [finish_stats, finish_event]
            refine .start ?_
            rw [traceFlags_fetchInto]
            rfl
    · rename_i st _
      dsimp only
      rw [finish_stats, finish_event, countAborted_stats]
      refine statsStep_past (.inr ?_)
      rw [traceFlags_fetchInto]
      rfl
  | ret h =>
    change StatsStep cfg m.currentSampleDenominator h.pushOk m.stats (ret cfg h m).2
      (ret cfg h m).1.stats
    unfold ret
    split
    · exact .quiet
    · rename_i st _
      dsimp only
      rw [finish_stats, finish_event, countAborted_stats]
      refine statsStep_past ?_
      rw [traceFlags_fetchInto]
      cases hends : st.ends cfg h.regs.ip with
      | true => exact .inl ⟨by simp [TraceState.retEvent, hends], TraceState.overrun_of_ends hends⟩
      | false => exact .inr (by simp [TraceState.retEvent, hends, TraceState.abortFlag])
  | goroutineExit h =>
    change StatsStep cfg m.currentSampleDenominator h.pushOk m.stats (goroutineExit h m).2
      (goroutineExit h m).1.stats
    unfold goroutineExit
    split
    · exact .quiet
    · rw [pushEvent_stats]
      exact .event (.inl rfl)
  | setSampleDenominator d => exact .quiet
  | setTypeRecipe t r => exact .quiet

theorem StatsStep.emitted {cfg : Config} {d : UInt32} {ok : Bool} {s s' : RuntimeStats}
    {e : Option Event} (h : StatsStep cfg d ok s e s') :
    s'.emittedEvents = s.emittedEvents + (e.toList.countP fun _ => ok) := by
  cases h with
  | start => cases ok <;> rfl
  | event => cases ok <;> rfl
  | abort => cases ok <;> rfl
  | _ => rfl

/-- At the denominator 1 no root call is sampled out. -/
theorem StatsStep.sampledOut_one {cfg : Config} {ok : Bool} {s s' : RuntimeStats}
    {e : Option Event} (h : StatsStep cfg 1 ok s e s') :
    s'.sampledOutRoots = s.sampledOutRoots := by
  cases h with
  | sampledOut hden => exact absurd rfl hden
  | start => cases ok <;> rfl
  | event => cases ok <;> rfl
  | abort => cases ok <;> rfl
  | _ => rfl

/-! ## The CPUs -/

/-- The maps with some more counted. -/
def Maps.plus (m : Maps) (s : RuntimeStats) : Maps := { m with stats := s + m.stats }

/-- The maps with some more counted, and with some events in front of the queue. -/
def Maps.extend (m : Maps) (s : RuntimeStats) (q : List Event) : Maps :=
  { m with stats := s + m.stats, eventQueue := q ++ m.eventQueue }

section
variable (m : Maps) (s : RuntimeStats) (q : List Event)

theorem pushEvent_extend (ok : Bool) (e : Event) :
    (m.extend s q).pushEvent ok e = (m.pushEvent ok e).extend s q := by
  cases ok with
  | false => rfl
  | true =>
    unfold Maps.extend Maps.pushEvent
    rw [if_pos rfl, if_pos rfl, List.append_assoc]
    rfl

theorem countAborted_extend (past : Bool) :
    (m.extend s q).countAborted past = (m.countAborted past).extend s q := by
  cases past <;> rfl

theorem setState_extend (k : GoidKey) (st : TraceState) :
    (m.extend s q).setState k st = (m.setState k st).extend s q := rfl

theorem fetchInto_extend (cfg : Config) (h : Hit) (e : Event) :
    fetchInto cfg (m.extend s q) h e = fetchInto cfg m h e := rfl

theorem finish_extend (h : Hit) (e : Event) (past : Bool) :
    finish h (m.extend s q) e past =
      ((finish h m e past).1.extend s q, (finish h m e past).2) := by
  unfold finish
  dsimp only
  rw [pushEvent_extend]
  cases past <;> rfl

/-- No program reads a counter or the queue but to add to it. -/
theorem step_extend (cfg : Config) (a : Action) :
    step cfg (m.extend s q) a = ((step cfg m a).1.extend s q, (step cfg m a).2) := by
  have hstate : (m.extend s q).shouldTraceGoid = m.shouldTraceGoid := rfl
  cases a with
  | ent h =>
    change ent cfg h (m.extend s q) = ((ent cfg h m).1.extend s q, (ent cfg h m).2)
    have hden : (m.extend s q).currentSampleDenominator = m.currentSampleDenominator := rfl
    unfold ent
    rw [hstate]
    cases m.shouldTraceGoid h.key with
    | none =>
      dsimp only
      rw [hden]
      cases cfg.shouldTraceRip h.regs.ip with
      | false => rfl
      | true =>
        cases shouldSample m.currentSampleDenominator h.random with
        | false => rfl
        | true =>
          cases h.insertOk with
          | false => rfl
          | true =>
            simp only [Bool.not_true, Bool.false_eq_true, if_false]
            rw [← finish_extend]
            rfl
    | some st =>
      dsimp only
      rw [setState_extend, countAborted_extend, fetchInto_extend, finish_extend]
  | ret h =>
    change ret cfg h (m.extend s q) = ((ret cfg h m).1.extend s q, (ret cfg h m).2)
    unfold ret
    rw [hstate]
    cases m.shouldTraceGoid h.key with
    | none => rfl
    | some st =>
      dsimp only
      rw [setState_extend, countAborted_extend, fetchInto_extend, finish_extend]
  | goroutineExit h =>
    change goroutineExit h (m.extend s q) =
      ((goroutineExit h m).1.extend s q, (goroutineExit h m).2)
    unfold goroutineExit
    rw [hstate]
    cases m.shouldTraceGoid h.key with
    | none => rfl
    | some st =>
      dsimp only
      rw [← pushEvent_extend]
      rfl
  | setSampleDenominator d => rfl
  | setTypeRecipe t r => rfl

theorem step_plus (cfg : Config) (a : Action) :
    step cfg (m.plus s) a = ((step cfg m a).1.plus s, (step cfg m a).2) :=
  step_extend m s [] cfg a

end

/-- The maps with some events in front of the queue. -/
def Maps.behind (m : Maps) (q : List Event) : Maps := { m with eventQueue := q ++ m.eventQueue }

theorem behind_eq_extend (m : Maps) (q : List Event) : m.behind q = m.extend 0 q := by
  unfold Maps.behind Maps.extend
  rw [zero_add]

theorem step_behind (cfg : Config) (m : Maps) (q : List Event) (a : Action) :
    step cfg (m.behind q) a = ((step cfg m a).1.behind q, (step cfg m a).2) := by
  rw [behind_eq_extend, step_extend, behind_eq_extend]

/-- The maps of a kernel whose counters are kept for each CPU. -/
structure PerCpu where
  maps : Maps := {}
  runtimeStatsMap : List RuntimeStats

/-- A program on a CPU counts in the counters of that CPU. -/
def PerCpu.step (cfg : Config) (s : PerCpu) (cpu : Nat) (a : Action) : PerCpu × Option Event :=
  let value := s.runtimeStatsMap.getD cpu {}
  let (m, e) := Bpf.step cfg { s.maps with stats := value } a
  ({ maps := m, runtimeStatsMap := s.runtimeStatsMap.set cpu m.stats }, e)

/-- The maps but for the counters. -/
def Maps.uncounted (m : Maps) : Maps := { m with stats := {} }

/-- One counter for all CPUs stands for their sum. -/
structure PerCpu.Refines (s : PerCpu) (m : Maps) : Prop where
  maps : s.maps.uncounted = m.uncounted
  stats : s.runtimeStatsMap.sum = m.stats

theorem plus_uncounted (m : Maps) : m.uncounted.plus m.stats = m := rfl

theorem sum_set {l : List RuntimeStats} {i : Nat} (hi : i < l.length) (d : RuntimeStats) :
    (l.set i (l.getD i {} + d)).sum = l.sum + d := by
  induction l generalizing i with
  | nil => cases hi
  | cons a l ih =>
    cases i with
    | zero =>
      rw [List.set_cons_zero, List.sum_cons, List.sum_cons, List.getD_cons_zero, add_right_comm]
    | succ i =>
      rw [List.set_cons_succ, List.sum_cons, List.sum_cons, List.getD_cons_succ,
        ih (Nat.lt_of_succ_lt_succ hi), add_assoc]

/-- A step on a CPU is a step with one counter. -/
theorem PerCpu.Refines.step {s : PerCpu} {m : Maps} (h : s.Refines m) (cfg : Config) {cpu : Nat}
    (hcpu : cpu < s.runtimeStatsMap.length) (a : Action) :
    (s.step cfg cpu a).1.Refines (Bpf.step cfg m a).1 ∧
      (s.step cfg cpu a).2 = (Bpf.step cfg m a).2 ∧
        (s.step cfg cpu a).1.runtimeStatsMap.length = s.runtimeStatsMap.length := by
  have hown : Bpf.step cfg { s.maps with stats := s.runtimeStatsMap.getD cpu {} } a =
      ((Bpf.step cfg m.uncounted a).1.plus (s.runtimeStatsMap.getD cpu {}),
        (Bpf.step cfg m.uncounted a).2) := by
    rw [← step_plus, ← h.maps]
    rfl
  have hall : Bpf.step cfg m a =
      ((Bpf.step cfg m.uncounted a).1.plus m.stats, (Bpf.step cfg m.uncounted a).2) := by
    rw [← step_plus, plus_uncounted]
  unfold PerCpu.step
  dsimp only
  rw [hown, hall]
  refine ⟨⟨rfl, ?_⟩, rfl, List.length_set⟩
  dsimp only [Maps.plus]
  rw [sum_set hcpu, h.stats]

/-! ## The events of a run -/

/-- The counters of a run that attempted some events. -/
structure Tallied (cfg : Config) (s : RuntimeStats) (attempted : List Event) : Prop where
  roots : s.wantedRoots = s.admittedRoots + s.sampledOutRoots + s.stateInsertFailures
  events : s.emittedEvents + s.droppedEvents = attempted.length
  aborted : s.abortedRoots = attempted.countP fun e => e.traceFlags = traceAbort
  admitted : cfg.adaptiveSampling = true →
    s.admittedRoots = attempted.countP fun e => e.traceFlags = traceStart

theorem tallied_empty (cfg : Config) : Tallied cfg {} [] := ⟨rfl, rfl, rfl, fun _ => rfl⟩

theorem pushed_events (ok : Bool) (s : RuntimeStats) :
    (s.pushed ok).emittedEvents + (s.pushed ok).droppedEvents =
      s.emittedEvents + s.droppedEvents + 1 := by
  cases ok <;> simp only [RuntimeStats.pushed, if_true, Bool.false_eq_true, if_false] <;> omega

theorem pushed_roots (ok : Bool) (s : RuntimeStats) :
    (s.pushed ok).wantedRoots = s.wantedRoots ∧ (s.pushed ok).admittedRoots = s.admittedRoots ∧
      (s.pushed ok).sampledOutRoots = s.sampledOutRoots ∧
      (s.pushed ok).stateInsertFailures = s.stateInsertFailures ∧
      (s.pushed ok).abortedRoots = s.abortedRoots := by
  cases ok <;> exact ⟨rfl, rfl, rfl, rfl, rfl⟩

/-- One more event, of which the flags are known. -/
theorem Tallied.push {cfg : Config} {s t : RuntimeStats} {attempted : List Event}
    (h : Tallied cfg s attempted) (ok : Bool) {e : Event}
    (hroots : t.wantedRoots = t.admittedRoots + t.sampledOutRoots + t.stateInsertFailures)
    (hevents : t.emittedEvents = s.emittedEvents ∧ t.droppedEvents = s.droppedEvents)
    (haborted : t.abortedRoots = s.abortedRoots + if e.traceFlags = traceAbort then 1 else 0)
    (hadmitted : cfg.adaptiveSampling = true →
      t.admittedRoots = s.admittedRoots + if e.traceFlags = traceStart then 1 else 0) :
    Tallied cfg (t.pushed ok) (attempted ++ [e]) := by
  obtain ⟨hwanted, hadm, hout, hfail, habort⟩ := pushed_roots ok t
  refine ⟨?_, ?_, ?_, fun ha => ?_⟩
  · rw [hwanted, hadm, hout, hfail, hroots]
  · rw [pushed_events, hevents.1, hevents.2, h.events, List.length_append]
    rfl
  · rw [habort, haborted, h.aborted, List.countP_append, List.countP_singleton]
    simp
  · rw [hadm, hadmitted ha, h.admitted ha, List.countP_append, List.countP_singleton]
    simp

theorem Tallied.step {cfg : Config} {d : UInt32} {ok : Bool} {s s' : RuntimeStats}
    {attempted : List Event} {e : Option Event} (h : Tallied cfg s attempted)
    (hstep : StatsStep cfg d ok s e s') :
    Tallied cfg s' (attempted ++ e.toList) := by
  have hroots := h.roots
  cases hstep with
  | quiet => simpa using h
  | sampledOut =>
    refine ⟨?_, ?_, ?_, ?_⟩
    · dsimp only
      omega
    · simpa using h.events
    · simpa using h.aborted
    · simpa using h.admitted
  | insertFailure =>
    refine ⟨?_, ?_, ?_, ?_⟩
    · dsimp only
      omega
    · simpa using h.events
    · simpa using h.aborted
    · simpa using h.admitted
  | @start e hflags =>
    refine h.push ok ?_ ⟨rfl, rfl⟩ ?_ fun ha => ?_
    · dsimp only
      omega
    · have hno : e.traceFlags ≠ traceAbort := by
        rw [hflags]
        split <;> decide
      rw [if_neg hno]
      rfl
    · rw [ha, if_pos rfl] at hflags
      rw [if_pos hflags]
  | @event e hflags =>
    have hno : e.traceFlags ≠ traceAbort ∧ e.traceFlags ≠ traceStart := by
      rcases hflags with hflags | hflags
      · rw [hflags]
        decide
      · rw [hflags]
        decide
    refine h.push ok hroots ⟨rfl, rfl⟩ ?_ fun _ => ?_
    · rw [if_neg hno.1]
      rfl
    · rw [if_neg hno.2]
      rfl
  | @abort e hflags =>
    refine h.push ok hroots ⟨rfl, rfl⟩ ?_ fun _ => ?_
    · rw [if_pos hflags]
    · have hno : e.traceFlags ≠ traceStart := by
        rw [hflags]
        decide
      rw [if_neg hno]
      rfl

end GoFtrace.Bpf
