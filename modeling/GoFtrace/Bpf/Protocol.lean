import GoFtrace.Bpf.Goroutine

/-!
# The sample protocol

With adaptive sampling on, the events attempted for one goroutine are a sequence of
samples: a root entry, then probe events, then the event that closes the sample.

* `run_protocol`: every run keeps to the protocol.
-/

namespace GoFtrace.Bpf

/-! ## Runs -/

/-- An event handed to `push_event`, with the maps before the hit. -/
structure Attempt where
  before : Maps
  event : Event

/-- The attempts of a step from the maps `m`. -/
def attemptOf (m : Maps) (e : Option Event) : List Attempt :=
  (e.map fun e => { before := m, event := e }).toList

/-- The maps after a run and the attempts made in it, in order. -/
def run (cfg : Config) : Maps → List Action → Maps × List Attempt
  | m, [] => (m, [])
  | m, a :: as =>
    let (m', e) := step cfg m a
    let (m'', log) := run cfg m' as
    (m'', attemptOf m e ++ log)

/-- The attempts made for one goroutine. -/
def attemptsOf (k : GoidKey) (log : List Attempt) : List Attempt :=
  log.filter fun a => a.event.key = k

@[simp] theorem attemptsOf_append (k : GoidKey) (xs ys : List Attempt) :
    attemptsOf k (xs ++ ys) = attemptsOf k xs ++ attemptsOf k ys := by
  simp [attemptsOf]

theorem attemptsOf_attemptOf (k : GoidKey) (m : Maps) (e : Option Event) :
    attemptsOf k (attemptOf m e) = attemptOf m (e.filter fun e => e.key = k) := by
  cases e with
  | none => rfl
  | some e => by_cases hk : e.key = k <;> simp [attemptsOf, attemptOf, Option.filter, hk]

/-! ## Words of the protocol -/

/-- The entry event of a wanted function that opens a sample. -/
structure Attempt.IsRoot (cfg : Config) (denominator : UInt32) (a : Attempt) : Prop where
  location : a.event.location = entPoint
  traceFlags : a.event.traceFlags = traceStart
  wanted : cfg.shouldTraceRip a.event.ip = true
  sampleDenominator : a.event.sampleDenominator = denominator
  current : a.before.currentSampleDenominator = denominator

/-- An entry or return event of a sample. -/
structure Attempt.IsProbe (denominator : UInt32) (flags : UInt8) (a : Attempt) : Prop where
  location : a.event.location = entPoint ∨ a.event.location = retPoint
  traceFlags : a.event.traceFlags = flags
  sampleDenominator : a.event.sampleDenominator = denominator

/-- A goroutine exit. -/
structure Attempt.IsExit (a : Attempt) : Prop where
  location : a.event.location = goroutineExitPoint
  traceFlags : a.event.traceFlags = 0

/-- An unfinished sample of at most `MAX_SAMPLE_EVENTS` events. -/
inductive Unfinished (cfg : Config) (denominator : UInt32) : List Attempt → Prop
  | root {s} (hs : s.IsRoot cfg denominator) : Unfinished cfg denominator [s]
  | probe {seg p} (hseg : Unfinished cfg denominator seg)
      (hlen : seg.length < maxSampleEvents.toNat) (hp : p.IsProbe denominator 0) :
      Unfinished cfg denominator (seg ++ [p])

/-- A sample and the event that closes it. -/
inductive Finished (cfg : Config) (denominator : UInt32) : List Attempt → Prop
  | ended {seg e} (hseg : Unfinished cfg denominator seg)
      (hlen : seg.length < maxSampleEvents.toNat) (he : e.IsProbe denominator traceEnd) :
      Finished cfg denominator (seg ++ [e])
  | aborted {seg e} (hseg : Unfinished cfg denominator seg)
      (hlen : seg.length = maxSampleEvents.toNat) (he : e.IsProbe denominator traceAbort) :
      Finished cfg denominator (seg ++ [e])
  | exited {seg e} (hseg : Unfinished cfg denominator seg) (he : e.IsExit) :
      Finished cfg denominator (seg ++ [e])

theorem Unfinished.length_le {cfg : Config} {d : UInt32} {seg : List Attempt}
    (h : Unfinished cfg d seg) : seg.length ≤ maxSampleEvents.toNat := by
  cases h with
  | root hs => exact (by decide : 1 ≤ maxSampleEvents.toNat)
  | probe hseg hlen hp =>
    rw [List.length_append]
    exact hlen

/-- The trace state of a goroutine describes its unfinished sample. -/
inductive Tracks (cfg : Config) : Option TraceState → List Attempt → Prop
  | idle : Tracks cfg none []
  | sampling {st seg} (hseg : Unfinished cfg st.sampleDenominator seg)
      (hcount : st.eventCount.toNat = seg.length) : Tracks cfg (some st) seg

/-- The attempts of a goroutine are finished samples and one that `st` describes. -/
def Protocol (cfg : Config) (st : Option TraceState) (log : List Attempt) : Prop :=
  ∃ (segs : List (List Attempt)) (tail : List Attempt), log = segs.flatten ++ tail ∧
    (∀ seg ∈ segs, ∃ d, Finished cfg d seg) ∧ Tracks cfg st tail

/-! ## One step -/

theorem TraceState.overrun_eq {st : TraceState} {cfg : Config} (ha : cfg.adaptiveSampling = true)
    {n : Nat} (hcount : st.eventCount.toNat = n) (hn : n ≤ maxSampleEvents.toNat) :
    st.overrun cfg = decide (n = maxSampleEvents.toNat) := by
  have h4096 : maxSampleEvents.toNat = 4096 := rfl
  have hadd : (st.eventCount + 1).toNat = n + 1 := by
    rw [UInt32.toNat_add, hcount, show (1 : UInt32).toNat = 1 from rfl,
      Nat.mod_eq_of_lt (by omega)]
  simp only [overrun, ha, Bool.true_and, UInt32.lt_iff_toNat_lt, hadd]
  exact decide_eq_decide.mpr (by omega)

theorem TraceState.succ_eventCount {st : TraceState} {n : Nat}
    (hcount : st.eventCount.toNat = n) (hn : n < maxSampleEvents.toNat) :
    (st.eventCount + 1).toNat = n + 1 := by
  have h4096 : maxSampleEvents.toNat = 4096 := rfl
  rw [UInt32.toNat_add, hcount, show (1 : UInt32).toNat = 1 from rfl, Nat.mod_eq_of_lt (by omega)]

theorem TraceState.overrun_of_ends {st : TraceState} {cfg : Config} {ip : UInt64}
    (h : st.ends cfg ip = true) : st.overrun cfg = false := by
  cases ho : st.overrun cfg with
  | false => rfl
  | true => simp [ends, atRootRet, ho] at h

/-- Only a sampled goroutine has too many events. -/
theorem TraceState.adaptive_of_overrun {st : TraceState} {cfg : Config}
    (h : st.overrun cfg = true) : cfg.adaptiveSampling = true := by
  simp only [overrun, Bool.and_eq_true] at h
  exact h.1

theorem TraceState.adaptive_of_ends {st : TraceState} {cfg : Config} {ip : UInt64}
    (h : st.ends cfg ip = true) : cfg.adaptiveSampling = true := by
  simp only [ends, atRootRet, Bool.and_eq_true] at h
  exact h.1.1.2

theorem TraceState.abortFlag_of_overrun {st : TraceState} {cfg : Config} {past : Bool}
    (h : st.overrun cfg = past) : st.abortFlag cfg = if past then traceAbort else 0 := by
  rw [abortFlag, h]

/-- The fields that the protocol is about do not depend on the leaves. -/
theorem isProbe_of_bare {m : Maps} {e e' : Event} {d : UInt32} {flags : UInt8}
    (hb : e.bare = e') (h : Attempt.IsProbe d flags { before := m, event := e' }) :
    Attempt.IsProbe d flags { before := m, event := e } := by
  subst hb
  exact { location := h.location, traceFlags := h.traceFlags
          sampleDenominator := h.sampleDenominator }

theorem isProbe_entry (m : Maps) (st : TraceState) (cfg : Config) (h : Hit) :
    Attempt.IsProbe st.sampleDenominator (st.abortFlag cfg)
      { before := m, event := st.entryEvent cfg h } :=
  { location := .inl rfl, traceFlags := rfl, sampleDenominator := rfl }

theorem isProbe_ret (m : Maps) (st : TraceState) (cfg : Config) (h : Hit) :
    Attempt.IsProbe st.sampleDenominator
      (if st.ends cfg h.regs.ip then traceEnd else st.abortFlag cfg)
      { before := m, event := st.retEvent cfg h } :=
  { location := .inr rfl, traceFlags := rfl, sampleDenominator := rfl }

/-- A finished sample joins the finished ones. -/
theorem Protocol.finish {cfg : Config} {log : List Attempt} {segs : List (List Attempt)}
    {tail : List Attempt} {d : UInt32} {a : Attempt} (hlog : log = segs.flatten ++ tail)
    (hsegs : ∀ seg ∈ segs, ∃ d, Finished cfg d seg) (hseg : Finished cfg d (tail ++ [a])) :
    Protocol cfg none (log ++ [a]) := by
  refine ⟨segs ++ [tail ++ [a]], [], ?_, ?_, .idle⟩
  · simp [hlog]
  · intro seg hmem
    rcases List.mem_append.mp hmem with hmem | hmem
    · exact hsegs seg hmem
    · rw [List.mem_singleton.mp hmem]
      exact ⟨d, hseg⟩

/-- A probe event extends the unfinished sample. -/
theorem Protocol.extend {cfg : Config} {log : List Attempt} {segs : List (List Attempt)}
    {tail : List Attempt} {st : TraceState} {a : Attempt} (hlog : log = segs.flatten ++ tail)
    (hsegs : ∀ seg ∈ segs, ∃ d, Finished cfg d seg)
    (hseg : Unfinished cfg st.sampleDenominator (tail ++ [a]))
    (hcount : st.eventCount.toNat = (tail ++ [a]).length) :
    Protocol cfg (some st) (log ++ [a]) :=
  ⟨segs, tail ++ [a], by simp [hlog], hsegs, .sampling hseg hcount⟩

/-- One step keeps the protocol of every goroutine. -/
theorem Protocol.step {cfg : Config} (ha : cfg.adaptiveSampling = true) {m : Maps} {k : GoidKey}
    {a : Action} {log : List Attempt} {st' : Option TraceState} {e : Option Event}
    (hstep : LocalStep cfg m.currentSampleDenominator k a (m.shouldTraceGoid k) st'
      (e.map Event.bare))
    (h : Protocol cfg (m.shouldTraceGoid k) log) :
    Protocol cfg st' (log ++ attemptOf m e) := by
  generalize hst : m.shouldTraceGoid k = st at hstep h
  generalize hb : e.map Event.bare = b at hstep
  obtain ⟨segs, tail, hlog, hsegs, htail⟩ := h
  cases hstep with
  | idle =>
    have he : e = none := Option.map_eq_none_iff.mp hb
    subst he
    rw [show attemptOf m none = [] from rfl, List.append_nil]
    exact ⟨segs, tail, hlog, hsegs, htail⟩
  | start hk hadm =>
    rename_i hit
    obtain ⟨e, rfl, he⟩ := Option.map_eq_some_iff.mp hb
    cases htail with
    | idle =>
      have hroot : Attempt.IsRoot cfg m.currentSampleDenominator { before := m, event := e } :=
        { location := congrArg Event.location he
          traceFlags := by
            rw [show e.traceFlags = e.bare.traceFlags from rfl, he, rootEvent, if_pos ha]
          wanted := by
            have hip : e.ip = hit.regs.ip := congrArg Event.ip he
            simp only [admits, Bool.and_eq_true] at hadm
            rw [hip]
            exact hadm.1.1
          sampleDenominator := congrArg Event.sampleDenominator he
          current := rfl }
      have hseg : Unfinished cfg m.currentSampleDenominator
          ([] ++ [{ before := m, event := e }]) := Unfinished.root hroot
      exact Protocol.extend hlog hsegs hseg rfl
  | entry hk ho =>
    obtain ⟨e, rfl, he⟩ := Option.map_eq_some_iff.mp hb
    cases htail with
    | sampling hseg hcount =>
      rename_i hit st
      have hlt : tail.length < maxSampleEvents.toNat := by
        rw [TraceState.overrun_eq ha hcount hseg.length_le, decide_eq_false_iff_not] at ho
        exact lt_of_le_of_ne hseg.length_le ho
      have hprobe := isProbe_of_bare he (isProbe_entry m st cfg hit)
      rw [TraceState.abortFlag_of_overrun ho] at hprobe
      refine Protocol.extend hlog hsegs (Unfinished.probe hseg hlt hprobe) ?_
      rw [List.length_append]
      exact TraceState.succ_eventCount hcount hlt
  | entryAbort hk ho =>
    obtain ⟨e, rfl, he⟩ := Option.map_eq_some_iff.mp hb
    cases htail with
    | sampling hseg hcount =>
      rename_i hit st
      have hprobe := isProbe_of_bare he (isProbe_entry m st cfg hit)
      rw [TraceState.abortFlag_of_overrun ho] at hprobe
      rw [TraceState.overrun_eq ha hcount hseg.length_le, decide_eq_true_iff] at ho
      exact Protocol.finish hlog hsegs (.aborted hseg ho hprobe)
  | ret hk ho hends =>
    obtain ⟨e, rfl, he⟩ := Option.map_eq_some_iff.mp hb
    cases htail with
    | sampling hseg hcount =>
      rename_i hit st
      have hlt : tail.length < maxSampleEvents.toNat := by
        rw [TraceState.overrun_eq ha hcount hseg.length_le, decide_eq_false_iff_not] at ho
        exact lt_of_le_of_ne hseg.length_le ho
      have hprobe := isProbe_of_bare he (isProbe_ret m st cfg hit)
      rw [hends, TraceState.abortFlag_of_overrun ho] at hprobe
      refine Protocol.extend hlog hsegs (Unfinished.probe hseg hlt hprobe) ?_
      rw [List.length_append]
      exact TraceState.succ_eventCount hcount hlt
  | retEnd hk hends =>
    obtain ⟨e, rfl, he⟩ := Option.map_eq_some_iff.mp hb
    cases htail with
    | sampling hseg hcount =>
      rename_i hit st
      have ho := TraceState.overrun_of_ends hends
      have hlt : tail.length < maxSampleEvents.toNat := by
        rw [TraceState.overrun_eq ha hcount hseg.length_le, decide_eq_false_iff_not] at ho
        exact lt_of_le_of_ne hseg.length_le ho
      have hprobe := isProbe_of_bare he (isProbe_ret m st cfg hit)
      rw [hends] at hprobe
      exact Protocol.finish hlog hsegs (.ended hseg hlt hprobe)
  | retAbort hk ho hends =>
    obtain ⟨e, rfl, he⟩ := Option.map_eq_some_iff.mp hb
    cases htail with
    | sampling hseg hcount =>
      rename_i hit st
      have hprobe := isProbe_of_bare he (isProbe_ret m st cfg hit)
      rw [hends, TraceState.abortFlag_of_overrun ho] at hprobe
      rw [TraceState.overrun_eq ha hcount hseg.length_le, decide_eq_true_iff] at ho
      exact Protocol.finish hlog hsegs (.aborted hseg ho hprobe)
  | exit hk =>
    obtain ⟨e, rfl, he⟩ := Option.map_eq_some_iff.mp hb
    cases htail with
    | sampling hseg hcount =>
      have hexit : Attempt.IsExit { before := m, event := e } :=
        { location := congrArg Event.location he
          traceFlags := congrArg Event.traceFlags he }
      exact Protocol.finish hlog hsegs (.exited hseg hexit)

/-! ## Every run -/

/-- A run keeps the protocol of every goroutine. -/
theorem Protocol.run {cfg : Config} (ha : cfg.adaptiveSampling = true) {k : GoidKey}
    (as : List Action) {m : Maps} {log : List Attempt}
    (h : Protocol cfg (m.shouldTraceGoid k) (attemptsOf k log)) :
    Protocol cfg ((run cfg m as).1.shouldTraceGoid k)
      (attemptsOf k (log ++ (Bpf.run cfg m as).2)) := by
  induction as generalizing m log with
  | nil => simpa [Bpf.run] using h
  | cons a as ih =>
    have hcases := stepLocal_cases cfg m.currentSampleDenominator k a (m.shouldTraceGoid k)
    rw [← step_state, ← step_event] at hcases
    have hnext := Protocol.step ha hcases h
    rw [← attemptsOf_attemptOf, ← attemptsOf_append] at hnext
    have hrest := ih hnext
    rw [List.append_assoc] at hrest
    exact hrest

/-- From empty maps on, the attempts of every goroutine are samples of the protocol, and
the kernel remembers the goroutine exactly while its last sample is unfinished. -/
theorem run_protocol {cfg : Config} (ha : cfg.adaptiveSampling = true) {m : Maps}
    (hm : m.shouldTraceGoid = fun _ => none) (as : List Action) (k : GoidKey) :
    Protocol cfg ((run cfg m as).1.shouldTraceGoid k) (attemptsOf k (run cfg m as).2) := by
  have hinit : Protocol cfg (m.shouldTraceGoid k) (attemptsOf k []) := by
    rw [hm]
    exact ⟨[], [], rfl, by simp, .idle⟩
  exact Protocol.run ha as hinit

/-- A root call that returns. -/
theorem run_protocol_call :
    Protocol sampleConfig
      ((run sampleConfig {} [.ent (sampleHit 16), .ret (sampleHit 31)]).1.shouldTraceGoid
        (sampleHit 16).key)
      (attemptsOf (sampleHit 16).key
        (run sampleConfig {} [.ent (sampleHit 16), .ret (sampleHit 31)]).2) :=
  run_protocol rfl rfl _ _

end GoFtrace.Bpf
