import GoFtrace.Tracing.Printed

/-!
# Aggregated samples

The counters of `AggregateStack` in an execution whose events all arrive: a sample is recorded at
the return that closes it, with the calls that were made, and no sample is discarded.

* `aggregatesRight_of_keeps`: one event of a goroutine whose records are known.
* `calls_aggregated`: every execution without losses.
-/

namespace GoFtrace.Tracing

open EventManager (AggCall GoftraceEvent View)
open Lib (Forest replay)

section
variable {cfg : EventManager.Config} {full : Bool} {argString : String} {v v' : View}
  {events : List EventManager.Event} {calls : List AggCall} {mismatch : Bool}

/-! ## One event -/

/-- `Handle` of the event that closes a stack ran `AggregateStack` or counted an incomplete
sample. -/
def Finishes : EventManager.Outcome → Prop
  | .aggregated _ _ _ => True
  | .discarded => True
  | _ => False

theorem finishes_cases {event : GoftraceEvent} {outcome : EventManager.Outcome}
    (h : View.Step cfg full event argString v v' outcome) (hout : Finishes outcome) :
    ∃ p w, cfg.getUprobe event.ip = some p ∧
      View.Retained cfg { goftraceEvent := event, uprobe := p, argString := argString }
        (v.admitted cfg event) w ∧ w.closes cfg event = true ∧ outcome = w.closing cfg event := by
  cases h with
  | @closed p w hprobe hret hclose => exact ⟨p, w, hprobe, hret, hclose, rfl⟩
  | _ => exact hout.elim

/-- A valid stack without open calls is aggregated. -/
theorem closing_valid {event : GoftraceEvent} (ha : cfg.aggregate = true) (hstack : v.stack = [])
    (hinvalid : v.invalid = false) :
    v.closing cfg event = .aggregated v.events (EventManager.aggregateLoop v.events []).1
      (EventManager.aggregateLoop v.events []).2 := by
  rw [View.closing, ha, if_pos rfl, hstack, hinvalid]
  rfl

/-- What is recorded of a sample: a call for each that was made, between its latest entry and its
return. -/
structure Counts (sample : List CallEvent) (events : List EventManager.Event)
    (calls : List AggCall) : Prop where
  records : events.map EventManager.Event.goftraceEvent = oneEach sample
  paired : ∃ f : Forest (CallEvent × EventManager.Event),
    f.flatten = (latestEach sample).zip events ∧
      calls = f.pairs.map (fun q => EventManager.callOf (q.1.2, q.2.2)) ∧
      ∀ q ∈ f.pairs, q.1.1.event.location = Bpf.entPoint ∧
        q.2.1.event.location = Bpf.retPoint ∧ q.1.1.id = q.2.1.id

/-- A return that closes its sample is aggregated, an aggregated stack is such a sample, with the
calls that were made, and no stack is discarded. -/
structure AggregatesRight (cfg : EventManager.Config) (before : List CallEvent) (t : CallEvent)
    (m : EventManager) (out : EventManager.Outcome) : Prop where
  complete : ClosesSample before t →
    (∃ events calls, out = .aggregated events calls false) ∨ cfg.adaptive = true ∧ RanOut m
  sound : ∀ events calls mismatch, out = .aggregated events calls mismatch →
    ClosesSample before t ∧ mismatch = false ∧ Counts (sampleOf before ++ [t]) events calls
  whole : out ≠ .discarded

end

section
variable {cfg : EventManager.Config} {before : List CallEvent} {t : CallEvent}
  {m : EventManager} {stack stack' : List (Nat × UInt64)}

/-- A stack that is finished is the sample that its event closes. -/
theorem Retains.finishes {v : View} {full : Bool} {argString : String}
    {sample sample' : List CallEvent} (h : Retains sample stack v)
    (hcalls : SampleCalls cfg sample stack)
    (ht : Recording cfg t sample stack sample' stack') (ha : cfg.aggregate = true)
    (hresolved : Resolved cfg v) (hout : Finishes (v.handle cfg full t.event argString).2) :
    (t.event.location = Bpf.retPoint ∧ t.event.traceFlags ≠ Bpf.traceAbort ∧
        (sample.head?).map CallEvent.id = some t.id) ∧
      ∃ events, (v.handle cfg full t.event argString).2 =
          .aggregated events (EventManager.aggregateLoop events []).1
            (EventManager.aggregateLoop events []).2 ∧
        events.map EventManager.Event.goftraceEvent = oneEach (sample ++ [t]) ∧
        ∀ e ∈ events, cfg.getUprobe e.goftraceEvent.ip = some e.uprobe := by
  obtain ⟨p, w, hprobe, hret, hclose, hclosing⟩ :=
    finishes_cases (View.handle_cases cfg full t.event argString v) hout
  have hno : (v.handle cfg full t.event argString).2 ≠ .aborted := by
    intro haborted
    rw [haborted] at hout
    exact hout
  obtain ⟨hcloses, hstack, hinvalid, hevents⟩ := h.closed hcalls ht hno hprobe hret hclose
  refine ⟨hcloses, w.events, ?_, hevents, (hresolved.admitted t.event).retained hprobe hret⟩
  rw [hclosing, closing_valid ha hstack hinvalid]

theorem aggregatesRight_of_keeps (ha : cfg.aggregate = true)
    (h : Keeps cfg (sampleOf before) stack m t.event.key)
    (hcalls : SampleCalls cfg (sampleOf before) stack)
    (ht : Recording cfg t (sampleOf before) stack (extendSample (sampleOf before) t) stack')
    (hresolved : Resolved cfg (m.view t.event.key))
    (hbracketed : ∀ k, (m.view k).Bracketed cfg) (env : EventManager.Env) :
    AggregatesRight cfg before t (EventManager.handle cfg env m t.event).1
      (EventManager.handle cfg env m t.event).2 := by
  have haccepted := @EventManager.handle_accepted cfg m hbracketed env t.event
  obtain ⟨hview, hout⟩ := EventManager.handle_view cfg env m t.event
  -- what is known of a finished stack
  have hfinishes : Finishes (EventManager.handle cfg env m t.event).2 →
      ClosesSample before t ∧ ∃ events,
        (EventManager.handle cfg env m t.event).2 =
          .aggregated events (EventManager.aggregateLoop events []).1
            (EventManager.aggregateLoop events []).2 ∧
        Counts (sampleOf before ++ [t]) events (EventManager.aggregateLoop events []).1 := by
    intro hfinishes
    rw [hout] at hfinishes ⊢
    rcases h with h | ⟨hadaptive, -, b, hb⟩
    · obtain ⟨⟨hloc, hflags, hroot⟩, events, haggregated, hrecords, hknown⟩ :=
        h.finishes hcalls ht ha hresolved hfinishes
      have hcloses : ClosesSample before t := ⟨hloc, hflags, hroot⟩
      obtain ⟨hclosed, hne⟩ := hcloses.extend
      obtain ⟨hreplay, htokens⟩ := hcalls.closed ht hclosed hne hflags
      have hevents := hrecords
      rw [← latestEach_event] at hevents
      exact ⟨hcloses, events, haggregated, hrecords,
        paired_of_replay hknown hevents hreplay htokens⟩
    · rw [hb] at hfinishes
      obtain ⟨p, w, -, hret, hclose, -⟩ :=
        finishes_cases (View.handle_cases cfg _ t.event _ _) hfinishes
      have hnil : (({ suppressed := b } : View).admitted cfg t.event).events = [] := by
        simp [View.admitted, View.reset, hadaptive]
      exact absurd (hclose.symm.trans (ht.not_closed hadaptive hnil hret)) (by decide)
  refine ⟨fun hcloses => ?_, fun events calls mismatch haggregated => ?_, fun hdiscarded => ?_⟩
  · rcases h with h | ⟨hadaptive, hran, -⟩
    · obtain ⟨hclosed, hne⟩ := hcloses.extend
      rcases h.closes ht hclosed hne hcloses.flags with ⟨w, hstack, hinvalid, hclosing⟩ | hrejected
      · rw [← hout, closing_valid ha hstack hinvalid] at hclosing
        obtain ⟨-, -, -, -, hmismatch, -⟩ := haccepted hclosing
        rw [hmismatch] at hclosing
        exact .inl ⟨_, _, hclosing⟩
      · refine .inr ⟨hrejected.adaptive, ?_⟩
        exact ranOut_of_full hrejected.adaptive env hrejected.full h.suppressed hrejected.location
          hrejected.flags
    · exact .inr ⟨hadaptive, hran.handle cfg env t.event⟩
  · obtain ⟨hcloses, events', heq, hcounts⟩ := hfinishes (by rw [haggregated]; trivial)
    obtain ⟨-, -, -, -, hmismatch, -⟩ := haccepted haggregated
    rw [haggregated] at heq
    cases heq
    exact ⟨hcloses, hmismatch, hcounts⟩
  · obtain ⟨-, events, heq, -⟩ := hfinishes (by rw [hdiscarded]; trivial)
    rw [hdiscarded] at heq
    cases heq

end

/-! ## Every execution -/

/-- An execution without losses in which calls can be told from moved stacks is counted sample by
sample: as the call returns that a sample started with, each of its calls is recorded once with
the time from its latest entry to its return; no other event records a call, and no sample is
discarded. -/
theorem calls_aggregated {bcfg : Bpf.Config} {cfg : EventManager.Config} {goexit : UInt64}
    {fns : List TracedFunc} (hatt : Attached bcfg cfg goexit fns)
    (hapart : Apart cfg.symbols fns) (ha : cfg.aggregate = true) (k : Bpf.GoidKey)
    {g : Goroutine} (hg : g.Fresh fns) {m : Bpf.Maps} (hm : m.shouldTraceGoid k = none)
    (steps : List Step)
    (h : Execution.Along bcfg k
      (fun s x => x.Valid fns k s.goroutine ∧ x.Lossless ∧
        (s.kernel.shouldTraceGoid k ≠ none → x.Direct s.goroutine))
      { goroutine := g, kernel := m } steps)
    {before after : List CallEvent} {t : CallEvent}
    (hlog : (Execution.run bcfg k { goroutine := g, kernel := m } steps).log =
      before ++ t :: after)
    (arrivals : List (GoftraceEvent × EventManager.Env))
    (harrivals : EventManager.delivered k arrivals = taken before)
    (env : EventManager.Env) :
    let m := (EventManager.handleAll cfg {} arrivals).1
    AggregatesRight cfg before t (EventManager.handle cfg env m t.event).1
      (EventManager.handle cfg env m t.event).2 := by
  obtain ⟨stack, stack', hkey, hkeeps, hcalls, ht⟩ :=
    kept_before hatt.parsed (hatt.findable hapart) k hg hm steps h hlog arrivals harrivals
  have hbracketed : ∀ k, ((EventManager.handleAll cfg {} arrivals).1.view k).Bracketed cfg := by
    refine @EventManager.handleAll_induction cfg (fun m => ∀ k, (m.view k).Bracketed cfg) ?_
      arrivals {} fun _ _ _ => rfl
    intro env m event hm
    exact (View.stable_bracketed cfg).handle env m trivial hm
  rw [← hkey] at hkeeps
  exact aggregatesRight_of_keeps ha hkeeps hcalls ht (handleAll_resolved cfg arrivals _)
    hbracketed env

/-- Both calls are recorded as `R` returns. -/
theorem calls_aggregated_once :
    ∃ before t, onceLog = before ++ [t] ∧ ∃ events calls,
      (EventManager.handle treeConfig EventManager.sampleEnv
        (EventManager.handleAll treeConfig {}
          (EventManager.sampleArrivals (taken before))).1 t.event).2 =
        .aggregated events calls false ∧
      calls.map (fun c => (c.funcname, c.elapsed)) = [("A", 100), ("R", 300)] ∧
      Counts (sampleOf before ++ [t]) events calls := by
  have hlog : onceLog = onceLog.dropLast ++ onceLog.getLast (by decide) :: [] :=
    (List.dropLast_append_getLast _).symm
  have hright := calls_aggregated attached_tree apart_tree rfl treeKey (fresh_empty treeFns) rfl
    callsOnce along_callsOnce hlog (EventManager.sampleArrivals (taken onceLog.dropLast)) rfl
    EventManager.sampleEnv
  obtain ⟨events, calls, hout, htimes⟩ : ∃ events calls,
      (EventManager.handle treeConfig EventManager.sampleEnv
        (EventManager.handleAll treeConfig {}
          (EventManager.sampleArrivals (taken onceLog.dropLast))).1
        (onceLog.getLast (by decide)).event).2 = .aggregated events calls false ∧
      calls.map (fun c => (c.funcname, c.elapsed)) = [("A", 100), ("R", 300)] :=
    ⟨_, _, by with_unfolding_all rfl, by with_unfolding_all rfl⟩
  exact ⟨_, _, hlog, events, calls, hout, htimes, (hright.sound events calls false hout).2.2⟩

end GoFtrace.Tracing
