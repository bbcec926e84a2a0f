import GoFtrace.EventManager.Aggregation
import GoFtrace.Tracing.CallTree

/-!
# Lost events

The queue drops events when it is full, and the probe programs go on as if it had not. The
event manager sees a loss only where the events that are left do not close each other by
function, from a `TRACE_START` to the next `TRACE_END`.

* `Whole`: a sample whose records are all the events of one root call, paired call by call.
* `aggregated_whole`: every sample that is aggregated is whole, as long as no loss goes unseen.
* `losses_paired`: two losses that go unseen.
-/

namespace GoFtrace.Tracing

open Bpf (GoidKey)
open EventManager (AggCall GoftraceEvent View delivered hasFlag mergeNext mergeRepeats repeats
  sinceStart startsSample)
open Lib (Forest Token replay)

/-! ## Brackets -/

/-- The bracket of an event, by the function that is entered or left. -/
def eventToken (cfg : EventManager.Config) (e : Bpf.Event) : Token UInt64 :=
  if e.location = Bpf.entPoint then .opens e.ip
  else if e.location = Bpf.retPoint then
    match cfg.getUprobe e.ip with
    | some p => .closes (p.address - p.relOffset)
    | none => .skip
  else .skip

/-- The bracket of an event, by its call. -/
def callToken (cfg : EventManager.Config) (t : CallEvent) : Token (Nat × UInt64) :=
  (eventToken cfg t.event).map fun ip => (t.id, ip)

/-- Some events close each other function by function, once repeated entries are merged. -/
def Nested (cfg : EventManager.Config) (events : List Bpf.Event) : Prop :=
  replay (eventToken cfg) (mergeRepeats events) [] = some []

theorem eventToken_entry (cfg : EventManager.Config) {e : Bpf.Event}
    (hloc : e.location = Bpf.entPoint) : eventToken cfg e = .opens e.ip := by
  rw [eventToken, if_pos hloc]

theorem eventToken_return {cfg : EventManager.Config} {e : Bpf.Event} {p : GoFtrace.Uprobe}
    (hloc : e.location = Bpf.retPoint) (hp : cfg.getUprobe e.ip = some p) :
    eventToken cfg e = .closes (p.address - p.relOffset) := by
  rw [eventToken, hloc, if_neg (by decide), if_pos rfl, hp]

theorem callToken_snd (cfg : EventManager.Config) (t : CallEvent) :
    (callToken cfg t).map Prod.snd = eventToken cfg t.event := by
  unfold callToken
  cases eventToken cfg t.event <;> rfl

/-- The manager sees the bracket of an event whose probe it has found. -/
theorem bracket_eq {cfg : EventManager.Config} {e : EventManager.Event}
    (hp : cfg.getUprobe e.goftraceEvent.ip = some e.uprobe) :
    e.bracket = eventToken cfg e.goftraceEvent := by
  unfold EventManager.Event.bracket eventToken
  rw [hp]
  rfl

/-- Brackets of one call are brackets of one function. -/
theorem callToken_eq_opens {cfg : EventManager.Config} {t : CallEvent} {k : Nat × UInt64}
    (h : callToken cfg t = .opens k) : t.event.location = Bpf.entPoint ∧ t.id = k.1 := by
  unfold callToken eventToken at h
  split at h
  · rename_i hloc
    cases h
    exact ⟨hloc, rfl⟩
  · split at h
    · split at h <;> cases h
    · cases h

theorem callToken_eq_closes {cfg : EventManager.Config} {t : CallEvent} {k : Nat × UInt64}
    (h : callToken cfg t = .closes k) : t.event.location = Bpf.retPoint ∧ t.id = k.1 := by
  unfold callToken eventToken at h
  split at h
  · cases h
  · split at h
    · rename_i hloc
      split at h
      · cases h
        exact ⟨hloc, rfl⟩
      · cases h
    · cases h

/-! ## Aggregated samples -/

/-- The manager knows the probe of every event that it retains. -/
def Resolved (cfg : EventManager.Config) (v : View) : Prop :=
  ∀ e ∈ v.events, cfg.getUprobe e.goftraceEvent.ip = some e.uprobe

section

variable {cfg : EventManager.Config} {v v' : View}

theorem Resolved.admitted (h : Resolved cfg v) (event : GoftraceEvent) :
    Resolved cfg (v.admitted cfg event) := by
  intro e he
  unfold View.admitted View.reset at he
  split at he
  · split at he
    · cases he
    · exact h e he
  · exact h e he

theorem Resolved.retained (h : Resolved cfg v) {record : EventManager.Event}
    (hp : cfg.getUprobe record.goftraceEvent.ip = some record.uprobe)
    (hret : View.Retained cfg record v v') : Resolved cfg v' := by
  intro e he
  cases hret with
  | append _ _ =>
    rw [EventManager.append_events] at he
    rcases List.mem_append.mp he with he | he
    · exact h e he
    · rw [List.mem_singleton.mp he]
      exact hp
  | @replace last hlast hdup =>
    rcases List.mem_append.mp he with he | he
    · exact h e (List.mem_of_mem_dropLast he)
    · rw [List.mem_singleton.mp he]
      have hknown := h last (List.mem_of_getLast? hlast)
      simp only [EventManager.isDuplicate, Bool.and_eq_true, beq_iff_eq] at hdup
      rw [hdup.1.2] at hknown
      exact hknown

theorem Resolved.step {full : Bool} {event : GoftraceEvent} {argString : String}
    {outcome : EventManager.Outcome} (h : Resolved cfg v)
    (hstep : View.Step cfg full event argString v v' outcome) : Resolved cfg v' := by
  have hempty : ∀ b, Resolved cfg { suppressed := b } := fun b e he => by cases he
  cases hstep with
  | exited _ => exact hempty false
  | aborted _ _ => exact hempty false
  | suppressed _ _ _ => exact h
  | overBudget _ _ => exact hempty _
  | unresolved _ => exact h.admitted event
  | unwanted _ _ => exact h.admitted event
  | kept hprobe hret _ => exact (h.admitted event).retained hprobe hret
  | closed _ _ _ => exact hempty _

theorem handleAll_resolved (cfg : EventManager.Config)
    (arrivals : List (GoftraceEvent × EventManager.Env)) :
    ∀ k, Resolved cfg ((EventManager.handleAll cfg {} arrivals).1.view k) := by
  have hinit : ∀ k, Resolved cfg (({} : EventManager).view k) := fun k e he => by cases he
  refine EventManager.handleAll_induction
    (P := fun m => ∀ k, Resolved cfg (m.view k)) (fun env m event hm k => ?_) arrivals hinit
  by_cases hk : k = event.key
  · subst hk
    exact (hm event.key).step (EventManager.handle_step cfg env m event)
  · have heffect := EventManager.handle_view_of_ne cfg env m hk
    generalize (EventManager.handle cfg env m event).1.view k = v' at heffect ⊢
    cases heffect with
    | same => exact hm k
    | freed _ => exact hm k
    | evicted _ => exact fun e he => by cases he

/-- A sample that `AggregateStack` gets at an event, after the events `before` of its
goroutine. -/
structure Aggregated (cfg : EventManager.Config) (before : List GoftraceEvent)
    (event : GoftraceEvent) (events : List EventManager.Event) (calls : List AggCall) : Prop where
  ends : hasFlag event Bpf.traceEnd = true
  sample : events.map EventManager.Event.goftraceEvent =
    mergeRepeats (sinceStart (before ++ [event]))
  ne : events ≠ []
  replays : replay EventManager.Event.bracket events [] = some []
  calls : calls = (EventManager.aggregateLoop events []).1
  resolved : ∀ e ∈ events, cfg.getUprobe e.goftraceEvent.ip = some e.uprobe

theorem aggregated_of_handle (ha : cfg.adaptive = true)
    (arrivals : List (GoftraceEvent × EventManager.Env)) (env : EventManager.Env)
    {event : GoftraceEvent}
    (hres : ∀ e ∈ delivered event.key arrivals, EventManager.Resolves cfg e)
    {events : List EventManager.Event} {calls : List AggCall} {mismatch : Bool}
    (h : (EventManager.handle cfg env (EventManager.handleAll cfg {} arrivals).1 event).2 =
      .aggregated events calls mismatch) :
    Aggregated cfg (delivered event.key arrivals) event events calls := by
  have hwhole := EventManager.handleAll_whole ha arrivals hres
  have hbracketed := EventManager.handleAll_induction
    (fun env m _ hm => (View.stable_bracketed cfg).handle env m trivial hm) arrivals
    (m := {}) (fun k _ _ => rfl)
  have hresolved := handleAll_resolved cfg arrivals event.key
  generalize (EventManager.handleAll cfg {} arrivals).1 = m at h hwhole hbracketed hresolved
  have hstep := EventManager.handle_step cfg env m event
  rw [h] at hstep
  generalize hout : EventManager.Outcome.aggregated events calls mismatch = outcome at hstep
  generalize (EventManager.handle cfg env m event).1.view event.key = v' at hstep
  cases hstep with
  | @closed p v' hprobe hret hclose =>
    obtain ⟨haggregate, hvalid, hstack, rfl, rfl, -⟩ := View.closing_aggregated hout.symm
    have hne : v'.events ≠ [] := by
      cases hret with
      | append _ _ =>
        rw [EventManager.append_events]
        exact List.append_ne_nil_of_right_ne_nil _ (List.cons_ne_nil _ _)
      | replace _ _ => exact List.append_ne_nil_of_right_ne_nil _ (List.cons_ne_nil _ _)
    refine ⟨?_, ?_, hne, ?_, rfl, ?_⟩
    · rw [View.closes, haggregate, ha] at hclose
      exact hclose
    · exact (EventManager.retained_whole ha hwhole hret).resolve_left hne
    · have hreplay := (View.stable_bracketed cfg).retain _ _ _ trivial
        (View.admitted_suppressed event) hret
        ((View.stable_bracketed cfg).admitted event (hbracketed event.key)) haggregate hvalid
      rw [hstack] at hreplay
      exact hreplay
    · exact (hresolved.admitted event).retained hprobe hret
  | _ => cases hout

end

/-! ## What the queue takes -/

/-- A `TRACE_START` that the queue took. -/
def startsTaken (t : CallEvent) : Bool := t.pushed && startsSample t.event

/-- The events from the latest `TRACE_START` on that the queue took. -/
def sinceTaken : List CallEvent → List CallEvent
  | [] => []
  | t :: ts =>
    if ts.any startsTaken then sinceTaken ts else if startsTaken t then t :: ts else []

theorem taken_cons (t : CallEvent) (ts : List CallEvent) :
    taken (t :: ts) = if t.pushed then t.event :: taken ts else taken ts := by
  unfold taken
  rw [List.filter_cons]
  split <;> rfl

theorem taken_append (xs ys : List CallEvent) : taken (xs ++ ys) = taken xs ++ taken ys := by
  simp [taken]

theorem any_taken (ts : List CallEvent) :
    (taken ts).any startsSample = ts.any startsTaken := by
  induction ts with
  | nil => rfl
  | cons t ts ih =>
    rw [taken_cons, List.any_cons, startsTaken]
    cases t.pushed with
    | true => simp [ih]
    | false => simp [ih]

theorem sinceTaken_eq_nil {ts : List CallEvent} (h : ts.any startsTaken = false) :
    sinceTaken ts = [] := by
  cases ts with
  | nil => rfl
  | cons t ts =>
    rw [List.any_cons, Bool.or_eq_false_iff] at h
    simp [sinceTaken, h.1, h.2]

/-- What the manager knows of the events since a `TRACE_START`. -/
theorem taken_sinceTaken (log : List CallEvent) :
    taken (sinceTaken log) = sinceStart (taken log) := by
  induction log with
  | nil => rfl
  | cons t ts ih =>
    rw [sinceTaken, taken_cons]
    cases hpushed : t.pushed with
    | true =>
      rw [if_pos rfl, sinceStart, any_taken]
      split
      · exact ih
      · rw [startsTaken, hpushed, Bool.true_and]
        split
        · rw [taken_cons, hpushed, if_pos rfl]
        · rfl
    | false =>
      rw [if_neg Bool.false_ne_true, startsTaken, hpushed, Bool.false_and,
        if_neg Bool.false_ne_true, ← ih]
      split
      · rfl
      · rename_i hany
        rw [sinceTaken_eq_nil (Bool.eq_false_iff.mpr hany)]

/-- If none of them was lost, they start with the latest `TRACE_START` of all. -/
theorem sinceTaken_eq {before ts : List CallEvent} {root : CallEvent}
    (hroot : startsSample root.event = true) (hts : ∀ t ∈ ts, startsSample t.event = false)
    (hne : sinceTaken (before ++ root :: ts) ≠ [])
    (hpushed : ∀ t ∈ sinceTaken (before ++ root :: ts), t.pushed = true) :
    sinceTaken (before ++ root :: ts) = root :: ts := by
  have hany : ts.any startsTaken = false := by
    rw [List.any_eq_false]
    intro t ht
    simp [startsTaken, hts t ht]
  induction before with
  | nil =>
    rw [List.nil_append, sinceTaken, hany, if_neg Bool.false_ne_true] at hne ⊢
    split
    · rfl
    · rename_i hno
      rw [if_neg hno] at hne
      exact absurd rfl hne
  | cons t before ih =>
    rw [List.cons_append, sinceTaken] at hne hpushed ⊢
    by_cases hlater : (before ++ root :: ts).any startsTaken = true
    · rw [if_pos hlater] at hne hpushed ⊢
      exact ih hne hpushed
    · rw [if_neg hlater] at hne hpushed
      by_cases hstarts : startsTaken t = true
      · rw [if_pos hstarts] at hpushed
        have hmem : root ∈ t :: (before ++ root :: ts) := by simp
        have htaken : startsTaken root = true := by rw [startsTaken, hpushed root hmem, hroot]; rfl
        exact absurd (List.any_eq_true.mpr ⟨root, by simp, htaken⟩) hlater
      · rw [if_neg hstarts] at hne
        exact absurd rfl hne

/-! ## One event for each call -/

/-- The stack stays where it is, and every function is traced. -/
def Step.Plain : Step → Prop
  | .call none _ _ => False
  | .grow _ _ => False
  | _ => True

/-- The last probe hit is the entry of the innermost call, or a return. -/
def EntersInnermost (g : Goroutine) : Prop :=
  ∀ ip bp, g.lastEntry = some (ip, bp) →
    ∃ a calls f, g.calls = a :: calls ∧ a.fn = some f ∧ f.entry = ip ∧ a.bp = bp

theorem EntersInnermost.direct {g : Goroutine} (h : EntersInnermost g) {x : Step}
    (hx : x.Plain) : x.Direct g := by
  cases x with
  | other _ => trivial
  | call fn bp hit =>
    cases fn with
    | none => trivial
    | some f =>
      intro last hlast
      obtain ⟨a, calls, f', hcalls, -, -, rfl⟩ := h _ _ hlast
      rw [hcalls]
      rfl
  | grow _ _ => trivial
  | ret _ _ => trivial

theorem EntersInnermost.step {fns : List TracedFunc} {k : GoidKey} {g : Goroutine}
    (h : EntersInnermost g) {x : Step} (hvalid : x.Valid fns k g) (hx : x.Plain) :
    EntersInnermost (g.step x) := by
  cases x with
  | other _ => exact h
  | call fn bp hit =>
    cases fn with
    | none => cases hx
    | some f =>
      intro ip last hlast
      have hentered : (g.step (.call (some f) bp hit)).lastEntry = some (f.entry, bp) :=
        Goroutine.enter_lastEntry (a := { id := g.next, fn := some f, bp := bp }) rfl rfl
      rw [hentered] at hlast
      cases hlast
      exact ⟨_, _, f, Goroutine.enter_calls _, rfl, rfl, rfl⟩
  | grow _ _ => cases hx
  | ret off hit =>
    obtain ⟨a, calls, hcalls, -⟩ := hvalid
    intro ip last hlast
    change g.leave.lastEntry = some (ip, last) at hlast
    cases hf : a.fn with
    | none =>
      rw [Goroutine.leave_lastEntry_none hcalls hf] at hlast
      obtain ⟨b, rest, f, hb, hbf, -, -⟩ := h _ _ hlast
      rw [hcalls] at hb
      obtain ⟨rfl, rfl⟩ := List.cons.inj hb
      rw [hf] at hbf
      cases hbf
    | some f =>
      rw [Goroutine.leave_lastEntry hcalls hf] at hlast
      cases hlast

/-- No call is entered twice. -/
structure EnteredOnce (s : Execution) : Prop where
  below : ∀ t ∈ s.log, t.id < s.goroutine.next
  once : s.log.Pairwise fun t u => t.isEntry = true → u.isEntry = true → t.id ≠ u.id

theorem EnteredOnce.append {g g' : Goroutine} {m m' : Bpf.Maps} {log : List CallEvent}
    (h : EnteredOnce { goroutine := g, kernel := m, log := log }) (hnext : g.next ≤ g'.next)
    {t : CallEvent} (hid : t.id < g'.next) (hnew : t.isEntry = true → t.id = g.next) :
    EnteredOnce { goroutine := g', kernel := m', log := log ++ [t] } := by
  refine ⟨fun u hu => ?_, List.pairwise_append.mpr ⟨h.once, List.pairwise_singleton _ _, ?_⟩⟩
  · rcases List.mem_append.mp hu with hu | hu
    · exact Nat.lt_of_lt_of_le (h.below u hu) hnext
    · rw [List.mem_singleton.mp hu]
      exact hid
  · intro u hu v hv _ hentry
    obtain rfl := List.mem_singleton.mp hv
    rw [hnew hentry]
    exact Nat.ne_of_lt (h.below u hu)

theorem EnteredOnce.attempted {g g' : Goroutine} {m m' : Bpf.Maps} {log : List CallEvent}
    (h : EnteredOnce { goroutine := g, kernel := m, log := log }) (hnext : g.next ≤ g'.next)
    {k : GoidKey} {id : Nat} {pushed : Bool} {e : Option Bpf.Event} (hid : id < g'.next)
    (hnew : ∀ event, e.filter (fun e => e.key = k) = some event →
      event.location = Bpf.entPoint → id = g.next) :
    EnteredOnce
      { goroutine := g', kernel := m', log := log ++ Execution.attempted k id pushed e } := by
  unfold Execution.attempted
  cases he : e.filter fun e => e.key = k with
  | none =>
    refine ⟨fun t ht => Nat.lt_of_lt_of_le (h.below t ?_) hnext, ?_⟩
    · simpa using ht
    · simpa using h.once
  | some event =>
    exact h.append hnext hid fun hentry => hnew event he (beq_iff_eq.mp hentry)

theorem EnteredOnce.step {bcfg : Bpf.Config} {fns : List TracedFunc} {k : GoidKey}
    {s : Execution} (h : EnteredOnce s) (hwf : s.goroutine.WellFormed fns) {x : Step}
    (hvalid : x.Valid fns k s.goroutine) (hx : x.Plain) : EnteredOnce (s.step bcfg k x) := by
  cases x with
  | other a => exact ⟨h.below, h.once⟩
  | call fn bp hit =>
    cases fn with
    | none => cases hx
    | some f =>
      rw [Execution.step_hit (Goroutine.action_call k s.goroutine (some f) bp hit)]
      have hnext : (s.goroutine.step (.call (some f) bp hit)).next = s.goroutine.next + 1 := by
        simp [Goroutine.step]
      refine h.attempted ?_ ?_ fun _ _ _ => rfl
      · omega
      · omega
  | grow _ _ => cases hx
  | ret off hit =>
    obtain ⟨a, calls, hcalls, -⟩ := hvalid
    have haction := Goroutine.action_ret (k := k) hcalls off hit
    have hmem : a ∈ s.goroutine.calls := by
      rw [hcalls]
      exact List.mem_cons_self
    cases hf : a.fn with
    | none =>
      rw [hf] at haction
      rw [Execution.step_silent (fun _ => Step.noConfusion) haction]
      exact ⟨fun t ht => Nat.lt_of_lt_of_eq (h.below t ht) (Goroutine.leave_next _).symm, h.once⟩
    | some f =>
      rw [hf] at haction
      rw [Execution.step_hit haction]
      have heffect := return_effect bcfg s.kernel hit k (f.entry + off)
      have hnext : s.goroutine.next = (s.goroutine.step (.ret off hit)).next :=
        (Goroutine.leave_next _).symm
      refine h.attempted (Nat.le_of_eq hnext) (Nat.lt_of_lt_of_eq (hwf.below a hmem) hnext) ?_
      intro event he hloc
      rw [he] at heffect
      rw [heffect.location] at hloc
      exact absurd hloc (by decide)

/-! ## Samples in the log -/

/-- The open sample is the end of the log from the latest `TRACE_START` on; it repeats no entry,
and leaves its calls open. -/
structure OpenSample (cfg : EventManager.Config) (log sample : List CallEvent)
    (stack : List (Nat × UInt64)) : Prop where
  suffix : sample ≠ [] → ∃ before root ts, sample = root :: ts ∧ log = before ++ sample ∧
    root.event.location = Bpf.entPoint ∧ root.event.traceFlags = Bpf.traceStart ∧
      ∀ t ∈ ts, hasFlag t.event Bpf.traceStart = false
  replays : replay (callToken cfg) sample [] = some stack
  tokens : ∀ t ∈ sample, callToken cfg t ≠ .skip
  merged : mergeRepeats (sample.map CallEvent.event) = sample.map CallEvent.event

theorem openSample_nil (cfg : EventManager.Config) (log : List CallEvent) :
    OpenSample cfg log [] [] where
  suffix h := absurd rfl h
  replays := rfl
  tokens _ ht := absurd ht List.not_mem_nil
  merged := rfl

section

variable {cfg : EventManager.Config} {log sample sample' : List CallEvent}
  {stack stack' : List (Nat × UInt64)} {t : CallEvent}

/-- One more event of the open sample. -/
theorem OpenSample.append (h : OpenSample cfg log sample stack) {last : CallEvent}
    (hlast : sample.getLast? = some last) (hrep : repeats last.event t.event = false)
    (hstart : hasFlag t.event Bpf.traceStart = false) (htoken : callToken cfg t ≠ .skip)
    (happly : (callToken cfg t).apply stack = some stack') :
    OpenSample cfg (log ++ [t]) (sample ++ [t]) stack' := by
  refine ⟨fun _ => ?_, ?_, ?_, ?_⟩
  · have hne : sample ≠ [] := by
      intro hnil
      rw [hnil] at hlast
      cases hlast
    obtain ⟨before, root, ts, rfl, rfl, hroot, hflags, hts⟩ := h.suffix hne
    refine ⟨before, root, ts ++ [t], rfl, List.append_assoc _ _ _, hroot, hflags, ?_⟩
    intro u hu
    rcases List.mem_append.mp hu with hu | hu
    · exact hts u hu
    · rw [List.mem_singleton.mp hu]
      exact hstart
  · rw [Lib.replay_concat h.replays, happly]
  · intro u hu
    rcases List.mem_append.mp hu with hu | hu
    · exact h.tokens u hu
    · rw [List.mem_singleton.mp hu]
      exact htoken
  · rw [List.map_append, List.map_singleton, EventManager.mergeRepeats_append, h.merged, mergeNext,
      List.getLast?_map, hlast, Option.map_some]
    dsimp only
    rw [if_neg (by rw [hrep]; exact Bool.false_ne_true)]

theorem callToken_entry (hloc : t.event.location = Bpf.entPoint) :
    callToken cfg t = .opens (t.id, t.event.ip) := by
  rw [callToken, eventToken_entry cfg hloc]
  rfl

theorem callToken_return {p : GoFtrace.Uprobe} (hloc : t.event.location = Bpf.retPoint)
    (hp : cfg.getUprobe t.event.ip = some p) :
    callToken cfg t = .closes (t.id, p.address - p.relOffset) := by
  rw [callToken, eventToken_return hloc hp]
  rfl

/-- A return of the innermost call, whether it ends the sample or not. -/
theorem OpenSample.return (h : OpenSample cfg log sample ((t.id, entry) :: stack))
    {last : CallEvent} {p : GoFtrace.Uprobe} (hentry : entry = p.address - p.relOffset)
    (hlast : sample.getLast? = some last) (hrep : repeats last.event t.event = false)
    (hloc : t.event.location = Bpf.retPoint) (hstart : hasFlag t.event Bpf.traceStart = false)
    (hp : cfg.getUprobe t.event.ip = some p) :
    OpenSample cfg (log ++ [t]) (sample ++ [t]) stack := by
  subst hentry
  have htoken := callToken_return hloc hp
  refine h.append hlast hrep hstart ?_ ?_
  · simp [htoken]
  · rw [htoken, Lib.apply_closes_cons]

theorem OpenSample.recording (ha : cfg.adaptive = true) (h : OpenSample cfg log sample stack)
    (honce : (log ++ [t]).Pairwise fun t u => t.isEntry = true → u.isEntry = true → t.id ≠ u.id)
    (ht : Recording cfg t sample stack sample' stack') :
    OpenSample cfg (log ++ [t]) sample' stack' := by
  cases ht with
  | first hp hloc hflags =>
    rw [ha, if_pos rfl] at hflags
    have htoken : callToken cfg t = .opens (t.id, t.event.ip) := callToken_entry hloc
    refine ⟨fun _ => ⟨log, t, [], rfl, rfl, hloc, hflags, ?_⟩, ?_, ?_, rfl⟩
    · exact fun u hu => absurd hu List.not_mem_nil
    · rw [Lib.replay_cons, htoken]
      rfl
    · intro u hu
      simp [List.mem_singleton.mp hu, htoken]
  | entry hp hloc hflags hlast hrep hfresh =>
    have htoken : callToken cfg t = .opens (t.id, t.event.ip) := callToken_entry hloc
    refine h.append hlast hrep (hasFlag_zero hflags _) ?_ ?_
    · simp [htoken]
    · rw [htoken, Lib.apply_opens]
  | @again p sample _ last hp hloc hflags hrep hid hne =>
    -- the call would have been entered twice
    obtain ⟨before, root, ts, -, hlog, -⟩ := h.suffix (by simp)
    have hmem : last ∈ log := by
      rw [hlog]
      simp
    have hentry : last.isEntry = true := by
      simp only [repeats, Bool.and_eq_true, beq_iff_eq] at hrep
      rw [CallEvent.isEntry, hrep.1.1, hloc]
      rfl
    have htwice := (List.pairwise_append.mp honce).2.2 last hmem t (by simp) hentry
      (by simp [CallEvent.isEntry, hloc])
    exact absurd hid htwice
  | ret hp hloc hflags hlast hrep hne =>
    exact h.return rfl hlast hrep hloc (hasFlag_zero hflags _) hp
  | close hp hloc hflags hlast hrep => exact openSample_nil cfg _
  | orphan hno hloc => exact openSample_nil cfg _
  | abort _ _ _ _ => exact openSample_nil cfg _

theorem Recorded.openSample (ha : cfg.adaptive = true) (h : Recorded cfg log sample stack)
    (honce : log.Pairwise fun t u => t.isEntry = true → u.isEntry = true → t.id ≠ u.id) :
    OpenSample cfg log sample stack := by
  induction h with
  | nil => exact openSample_nil cfg []
  | snoc h ht ih => exact (ih (List.pairwise_append.mp honce).1).recording ha honce ht

/-- Every event of the goroutine has a probe that the manager knows. -/
theorem Recorded.resolves (ha : cfg.adaptive = true) (h : Recorded cfg log sample stack) :
    ∀ t ∈ log, EventManager.Resolves cfg t.event := by
  induction h with
  | nil => exact fun t ht => absurd ht List.not_mem_nil
  | @snoc log sample sample' stack stack' u h ht ih =>
    intro t hmem _
    rcases List.mem_append.mp hmem with hmem | hmem
    · exact ih t hmem ‹_›
    · rw [List.mem_singleton.mp hmem]
      cases ht with
      | first hp _ _ => simp [hp]
      | entry hp _ _ _ _ _ => simp [hp]
      | again hp _ _ _ _ _ => simp [hp]
      | ret hp _ _ _ _ _ => simp [hp]
      | close hp _ _ _ _ => simp [hp]
      | orphan hno _ =>
        rw [ha] at hno
        cases hno
      | abort _ hp _ _ => simp [hp]

/-- The records of an event in the middle of a log. -/
theorem Recorded.split {before after : List CallEvent}
    (h : Recorded cfg (before ++ t :: after) sample stack) :
    ∃ sample₁ stack₁ sample₂ stack₂, Recorded cfg before sample₁ stack₁ ∧
      Recording cfg t sample₁ stack₁ sample₂ stack₂ := by
  induction after using List.reverseRecOn generalizing sample stack with
  | nil =>
    generalize hlog : before ++ [t] = log at h
    cases h with
    | nil => exact absurd hlog (by simp)
    | snoc h ht =>
      obtain ⟨rfl, heq⟩ := List.append_inj' hlog rfl
      obtain rfl := List.head_eq_of_cons_eq heq
      exact ⟨_, _, _, _, h, ht⟩
  | append_singleton after u ih =>
    generalize hlog : before ++ t :: (after ++ [u]) = log at h
    cases h with
    | nil => exact absurd hlog (by simp)
    | snoc h ht =>
      rw [← List.cons_append, ← List.append_assoc] at hlog
      obtain ⟨rfl, -⟩ := List.append_inj' hlog rfl
      exact ih h

end

/-- A delivered event is one of the log, behind those delivered before it. -/
theorem taken_split {log : List CallEvent} {events : List Bpf.Event} {e : Bpf.Event}
    (h : events ++ [e] <+: taken log) : ∃ before t after, log = before ++ t :: after ∧
      taken before = events ∧ t.event = e ∧ t.pushed = true := by
  induction log generalizing events with
  | nil => exact absurd (List.prefix_nil.mp h) (by simp)
  | cons t log ih =>
    rw [taken_cons] at h
    cases hpushed : t.pushed with
    | false =>
      rw [hpushed, if_neg Bool.false_ne_true] at h
      obtain ⟨before, u, after, rfl, htaken, hu, hup⟩ := ih h
      refine ⟨t :: before, u, after, rfl, ?_, hu, hup⟩
      rw [taken_cons, hpushed, if_neg Bool.false_ne_true, htaken]
    | true =>
      rw [hpushed, if_pos rfl] at h
      cases events with
      | nil =>
        obtain ⟨heq, -⟩ := List.cons_prefix_cons.mp h
        exact ⟨[], t, log, rfl, rfl, heq.symm, hpushed⟩
      | cons e' events =>
        obtain ⟨rfl, htail⟩ := List.cons_prefix_cons.mp h
        obtain ⟨before, u, after, rfl, htaken, hu, hup⟩ := ih htail
        refine ⟨t :: before, u, after, rfl, ?_, hu, hup⟩
        rw [taken_cons, hpushed, if_pos rfl, htaken]

theorem taken_of_pushed {log : List CallEvent} (h : ∀ t ∈ log, t.pushed = true) :
    taken log = log.map CallEvent.event := by
  rw [taken, List.filter_eq_self.mpr h]

theorem rootOf_start {before ts : List CallEvent} {root : CallEvent}
    (hroot : root.event.traceFlags = Bpf.traceStart)
    (hts : ∀ t ∈ ts, hasFlag t.event Bpf.traceStart = false) :
    rootOf (before ++ root :: ts) = some root.id := by
  have hnone : ts.filter (fun t => t.event.traceFlags == Bpf.traceStart) = [] := by
    rw [List.filter_eq_nil_iff]
    intro t ht hflags
    have hno := hts t ht
    rw [hasFlag, beq_iff_eq.mp hflags] at hno
    exact absurd hno (by decide)
  rw [rootOf, List.filter_append, List.filter_cons, if_pos (by simp [hroot]), hnone]
  simp

/-! ## Every aggregated sample -/

/-- No loss goes unseen: if the queue took a `TRACE_START` and the next `TRACE_END` and lost an
event between them, then the events that are left do not close each other by function. -/
def LossesSeen (cfg : EventManager.Config) (log : List CallEvent) : Prop :=
  ∀ before t, before ++ [t] <+: log → t.pushed = true → t.event.traceFlags = Bpf.traceEnd →
    (∃ u ∈ sinceTaken (before ++ [t]), u.pushed = false) →
      ¬ Nested cfg (taken (sinceTaken (before ++ [t])))

/-- The records of an aggregated sample are the events of a part of the log, none of them lost,
from the entry of a root call to its return. Each call recorded is the pair of the entry and
the return of one call. -/
structure Whole (log sample : List CallEvent) (events : List EventManager.Event)
    (calls : List AggCall) : Prop where
  part : ∃ before after, log = before ++ sample ++ after
  pushed : ∀ t ∈ sample, t.pushed = true
  records : events.map EventManager.Event.goftraceEvent = sample.map CallEvent.event
  root : ∃ root last, sample.head? = some root ∧ sample.getLast? = some last ∧
    root.event.traceFlags = Bpf.traceStart ∧ last.event.traceFlags = Bpf.traceEnd ∧
      root.id = last.id
  paired : ∃ f : Forest (CallEvent × EventManager.Event), f.flatten = sample.zip events ∧
    calls = f.pairs.map (fun p => EventManager.callOf (p.1.2, p.2.2)) ∧
      ∀ p ∈ f.pairs, p.1.1.event.location = Bpf.entPoint ∧
        p.2.1.event.location = Bpf.retPoint ∧ p.1.1.id = p.2.1.id

section

variable {cfg : EventManager.Config} {sample : List CallEvent}
  {events : List EventManager.Event} {calls : List AggCall}

theorem replay_records
    (hresolved : ∀ e ∈ events, cfg.getUprobe e.goftraceEvent.ip = some e.uprobe) :
    replay (eventToken cfg) (events.map EventManager.Event.goftraceEvent) [] =
      replay EventManager.Event.bracket events [] := by
  have hmap : events.map (fun e => eventToken cfg e.goftraceEvent) =
      events.map EventManager.Event.bracket :=
    List.map_congr_left fun e he => (bracket_eq (hresolved e he)).symm
  calc replay (eventToken cfg) (events.map EventManager.Event.goftraceEvent) []
      = replay id (events.map fun e => eventToken cfg e.goftraceEvent) [] := by
        rw [Lib.replay_map, Lib.replay_map]
        rfl
    _ = replay id (events.map EventManager.Event.bracket) [] := by rw [hmap]
    _ = replay EventManager.Event.bracket events [] := Lib.replay_map _ _ _ _

/-- The calls of a complete sample are paired by their brackets. -/
theorem paired_of_replay
    (hresolved : ∀ e ∈ events, cfg.getUprobe e.goftraceEvent.ip = some e.uprobe)
    (hrecords : events.map EventManager.Event.goftraceEvent = sample.map CallEvent.event)
    (hreplay : replay (callToken cfg) sample [] = some [])
    (htokens : ∀ t ∈ sample, callToken cfg t ≠ .skip) :
    ∃ f : Forest (CallEvent × EventManager.Event), f.flatten = sample.zip events ∧
      (EventManager.aggregateLoop events []).1 =
          f.pairs.map (fun p => EventManager.callOf (p.1.2, p.2.2)) ∧
        ∀ p ∈ f.pairs, p.1.1.event.location = Bpf.entPoint ∧
          p.2.1.event.location = Bpf.retPoint ∧ p.1.1.id = p.2.1.id := by
  have hlen : events.length = sample.length := by
    have hlen := congrArg List.length hrecords
    rwa [List.length_map, List.length_map] at hlen
  have hfst : (sample.zip events).map Prod.fst = sample :=
    List.map_fst_zip (Nat.le_of_eq hlen.symm)
  have hsnd : (sample.zip events).map Prod.snd = events :=
    List.map_snd_zip (Nat.le_of_eq hlen)
  have hzip : replay (fun x : CallEvent × EventManager.Event => callToken cfg x.1)
      (sample.zip events) [] = some [] := by
    rw [← Lib.replay_map (callToken cfg) Prod.fst, hfst, hreplay]
  obtain ⟨f, hf, hflat⟩ := Lib.exists_forest_of_replay hzip
  have hall : (sample.zip events).filter (fun x => callToken cfg x.1 ≠ .skip) =
      sample.zip events := by
    rw [List.filter_eq_self]
    intro x hx
    exact decide_eq_true (htokens x.1 (List.of_mem_zip hx).1)
  rw [hall] at hflat
  -- the records carry the same brackets, without the numbers of the calls
  have hbracket : ∀ x ∈ f.flatten, x.2.bracket = (callToken cfg x.1).map Prod.snd := by
    intro x hx
    rw [hflat] at hx
    have hagree : x.1.event = x.2.goftraceEvent := by
      have hforall : List.Forall₂ (fun t e => CallEvent.event t =
          EventManager.Event.goftraceEvent e) sample events := by
        refine List.forall₂_map_left_iff.mp (List.forall₂_map_right_iff.mp ?_)
        rw [List.forall₂_eq_eq_eq]
        exact hrecords.symm
      exact (List.forall₂_iff_zip.mp hforall).2 hx
    rw [callToken_snd, hagree]
    exact bracket_eq (hresolved x.2 (List.of_mem_zip hx).2)
  have hloop := EventManager.aggregateLoop_flatten (hf.map hbracket) [] []
  rw [List.append_nil, Forest.flatten_map, hflat, hsnd, Forest.pairs_map] at hloop
  refine ⟨f, hflat, ?_, fun p hp => ?_⟩
  · rw [hloop]
    simp [EventManager.aggregateLoop, Prod.map]
  · obtain ⟨k, hopen, hclose⟩ := hf.of_mem_pairs hp
    obtain ⟨hentry, hid⟩ := callToken_eq_opens hopen
    obtain ⟨hreturn, hid'⟩ := callToken_eq_closes hclose
    exact ⟨hentry, hreturn, hid.trans hid'.symm⟩

/-- An aggregated sample is whole, if its losses would have been seen. -/
theorem whole_of_aggregated (ha : cfg.adaptive = true) {log before after : List CallEvent}
    {t : CallEvent} (hlog : log = before ++ t :: after) {sample' : List CallEvent}
    {stack' : List (Nat × UInt64)} (hrecorded : Recorded cfg log sample' stack')
    (honce : log.Pairwise fun t u => t.isEntry = true → u.isEntry = true → t.id ≠ u.id)
    (hends : EndsWithRoot log) (hseen : LossesSeen cfg log) (hpushed : t.pushed = true)
    (h : Aggregated cfg (taken before) t.event events calls) :
    ∃ sample, Whole log sample events calls := by
  subst hlog
  obtain ⟨sample, stack, sample₂, stack₂, hbefore, ht⟩ := hrecorded.split
  have hopen : OpenSample cfg before sample stack :=
    hbefore.openSample ha (List.pairwise_append.mp honce).1
  have hpre : before ++ [t] <+: before ++ t :: after := ⟨after, by simp⟩
  have hno : ∀ flags : UInt8, flags &&& Bpf.traceEnd = 0 → t.event.traceFlags ≠ flags := by
    intro flags hzero hflags
    have hend := h.ends
    rw [hasFlag, hflags, hzero] at hend
    cases hend
  -- only the return that closes its sample carries the flag
  cases ht with
  | first _ _ hflags =>
    rw [ha] at hflags
    exact absurd hflags (hno _ (by decide))
  | entry _ _ hflags _ _ _ => exact absurd hflags (hno _ (by decide))
  | again _ _ hflags _ _ _ => exact absurd hflags (hno _ (by decide))
  | ret _ _ hflags _ _ _ => exact absurd hflags (hno _ (by decide))
  | orphan hnot _ =>
    rw [ha] at hnot
    cases hnot
  | abort _ _ _ hflags => exact absurd hflags (hno _ (by decide))
  | @close p _ last hp hloc hflags hlast hrep =>
    rw [ha, if_pos rfl] at hflags
    have hstart : hasFlag t.event Bpf.traceStart = false := by
      rw [hasFlag, hflags]
      decide
    have hclosed := hopen.return rfl hlast hrep hloc hstart hp
    have hne : sample ≠ [] := by
      intro hnil
      rw [hnil] at hlast
      cases hlast
    obtain ⟨before', root, ts, rfl, rfl, hroot, hrootflags, hts⟩ := hopen.suffix hne
    have hsample : events.map EventManager.Event.goftraceEvent =
        mergeRepeats (taken (sinceTaken (before' ++ root :: (ts ++ [t])))) := by
      rw [h.sample, taken_sinceTaken]
      have hlog : before' ++ root :: (ts ++ [t]) = before' ++ root :: ts ++ [t] := by simp
      rw [hlog, taken_append _ [t], taken_cons, hpushed, if_pos rfl]
      rfl
    have hsince : sinceTaken (before' ++ root :: (ts ++ [t])) ≠ [] := by
      intro hnil
      rw [hnil] at hsample
      exact h.ne (List.map_eq_nil_iff.mp hsample)
    have hnested : Nested cfg (taken (sinceTaken (before' ++ root :: (ts ++ [t])))) := by
      rw [Nested, ← hsample, replay_records h.resolved, h.replays]
    have hall : ∀ u ∈ sinceTaken (before' ++ root :: (ts ++ [t])), u.pushed = true := by
      intro u hu
      by_contra hlost
      have hlog : before' ++ root :: (ts ++ [t]) = before' ++ root :: ts ++ [t] := by simp
      rw [hlog] at hu hnested
      exact hseen _ t hpre hpushed hflags ⟨u, hu, Bool.eq_false_iff.mpr hlost⟩ hnested
    have hstarts : startsSample root.event = true := by
      rw [startsSample, hroot, hasFlag, hrootflags]
      decide
    have hrest : ∀ u ∈ ts ++ [t], startsSample u.event = false := by
      intro u hu
      rw [startsSample, Bool.and_eq_false_iff]
      right
      rcases List.mem_append.mp hu with hu | hu
      · exact hts u hu
      · rw [List.mem_singleton.mp hu]
        exact hstart
    have heq := sinceTaken_eq hstarts hrest hsince hall
    rw [heq] at hall hsample
    rw [taken_of_pushed hall] at hsample
    have hrecords : events.map EventManager.Event.goftraceEvent =
        (root :: (ts ++ [t])).map CallEvent.event := hsample.trans hclosed.merged
    refine ⟨root :: (ts ++ [t]), ⟨before', after, by simp⟩, hall, hrecords, ?_, ?_⟩
    · have hend := (hends _ t hpre).mp hflags
      rw [rootOf_start hrootflags hts] at hend
      refine ⟨root, t, rfl, ?_, hrootflags, hflags, Option.some.inj hend.2.1⟩
      rw [← List.cons_append, List.getLast?_concat]
    · rw [h.calls]
      exact paired_of_replay h.resolved hrecords hclosed.replays hclosed.tokens

end

/-- In every execution of traced calls of functions that are apart, whatever the queue loses, a
sample that is aggregated is whole, as long as no loss goes unseen. -/
theorem aggregated_whole {bcfg : Bpf.Config} {cfg : EventManager.Config} {goexit : UInt64}
    {fns : List TracedFunc} (hatt : Attached bcfg cfg goexit fns)
    (hapart : Apart cfg.symbols fns) (ha : cfg.adaptive = true) (k : GoidKey)
    {g : Goroutine} (hg : g.Fresh fns) {m : Bpf.Maps} (hm : m.shouldTraceGoid k = none)
    (steps : List Step)
    (h : Execution.Along bcfg k (fun s x => x.Valid fns k s.goroutine ∧ x.Plain)
      { goroutine := g, kernel := m } steps)
    (hseen : LossesSeen cfg (Execution.run bcfg k { goroutine := g, kernel := m } steps).log)
    (arrivals : List (GoftraceEvent × EventManager.Env)) (env : EventManager.Env)
    {event : GoftraceEvent} (hkey : event.key = k)
    (hqueue : delivered k (arrivals ++ [(event, env)]) <+:
      taken (Execution.run bcfg k { goroutine := g, kernel := m } steps).log)
    {events : List EventManager.Event} {calls : List AggCall} {mismatch : Bool}
    (hout : (EventManager.handle cfg env (EventManager.handleAll cfg {} arrivals).1 event).2 =
      .aggregated events calls mismatch) :
    ∃ sample, Whole (Execution.run bcfg k { goroutine := g, kernel := m } steps).log sample events
      calls := by
  subst hkey
  have hloc := hatt.findable hapart
  have hinit : Reconstructed bcfg cfg fns event.key { goroutine := g, kernel := m } ∧
      EntersInnermost g ∧ EnteredOnce { goroutine := g, kernel := m } := by
    refine ⟨reconstructed_fresh hg hm, ?_, ⟨fun t ht => absurd ht List.not_mem_nil, .nil⟩⟩
    intro ip bp hlast
    rw [hg.lastEntry] at hlast
    cases hlast
  have hstep : ∀ (s : Execution) (x : Step),
      (Reconstructed bcfg cfg fns event.key s ∧ EntersInnermost s.goroutine ∧ EnteredOnce s) →
      (x.Valid fns event.key s.goroutine ∧ x.Plain) →
      Reconstructed bcfg cfg fns event.key (s.step bcfg event.key x) ∧
        EntersInnermost (s.step bcfg event.key x).goroutine ∧
          EnteredOnce (s.step bcfg event.key x) := by
    intro s x ⟨hs, henters, honce⟩ ⟨hvalid, hplain⟩
    refine ⟨hs.step hatt.parsed hloc hvalid fun _ => henters.direct hplain, ?_,
      honce.step hs.wf hvalid hplain⟩
    rw [Execution.step_goroutine]
    exact henters.step hvalid hplain
  have hrun := Execution.run_induction hstep steps hinit h
  generalize Execution.run bcfg event.key { goroutine := g, kernel := m } steps = s at *
  obtain ⟨hs, -, honce⟩ := hrun
  obtain ⟨stack, -, hrecorded⟩ := hs.recorded
  have hown : delivered event.key (arrivals ++ [(event, env)]) =
      delivered event.key arrivals ++ [event] := by
    rw [EventManager.delivered_append]
    simp [delivered]
  rw [hown] at hqueue
  obtain ⟨before, t, after, hlog, htaken, rfl, hpushed⟩ := taken_split hqueue
  have hadaptive : bcfg.adaptiveSampling = true :=
    (Bpf.load_ok hatt.loaded).adaptiveSampling.trans ha
  have hres : ∀ e ∈ delivered t.event.key arrivals, EventManager.Resolves cfg e := by
    intro e he
    rw [← htaken] at he
    obtain ⟨u, hu, rfl⟩ := List.mem_map.mp he
    refine hrecorded.resolves ha u ?_
    rw [hlog]
    exact List.mem_append_left _ (List.mem_of_mem_filter hu)
  have hagg := aggregated_of_handle ha arrivals env hres hout
  rw [← htaken] at hagg
  exact whole_of_aggregated ha hlog hrecorded honce.once (hs.ends hadaptive) hseen hpushed hagg

/-! ## Runs with losses -/

instance (cfg : EventManager.Config) (events : List Bpf.Event) : Decidable (Nested cfg events) :=
  inferInstanceAs (Decidable (_ = _))

/-- The prefixes of a log, one by one. -/
theorem lossesSeen_of_take {cfg : EventManager.Config} {log : List CallEvent}
    (h : ∀ n ≤ log.length, ∀ t ∈ (log.take n).getLast?, t.pushed = true →
      t.event.traceFlags = Bpf.traceEnd → (∃ u ∈ sinceTaken (log.take n), u.pushed = false) →
        ¬ Nested cfg (taken (sinceTaken (log.take n)))) : LossesSeen cfg log := by
  intro before t hpre
  have heq := List.prefix_iff_eq_take.mp hpre
  have hlast : t ∈ (before ++ [t]).getLast? := List.getLast?_concat
  have hn := h (before ++ [t]).length hpre.length_le t
  rw [← heq] at hn
  exact hn hlast

/-- A hit at a time, whose event the queue takes or loses. -/
def hitAt (timeNs : UInt64) (pushOk : Bool) : Bpf.Hit :=
  { Bpf.sampleHit 0 with timeNs := timeNs, pushOk := pushOk }

/-- `R` calls `A`, whose return is lost, and then once more without losses. -/
def callsAgain : List Step :=
  [.call treeFns[0]? 4096 (hitAt 0 true), .call treeFns[1]? 4000 (hitAt 100 true),
    .ret 15 (hitAt 200 false), .ret 15 (hitAt 300 true),
    .call treeFns[0]? 4096 (hitAt 400 true), .call treeFns[1]? 4000 (hitAt 500 true),
    .ret 15 (hitAt 600 true), .ret 15 (hitAt 700 true)]

def againLog : List CallEvent := (Execution.run treeKernel treeKey {} callsAgain).log

theorem along_callsAgain :
    Execution.Along treeKernel treeKey
      (fun s x => x.Valid treeFns treeKey s.goroutine ∧ x.Plain) {} callsAgain :=
  ⟨⟨⟨probed_tree 0, by decide, by decide⟩, trivial⟩,
    ⟨⟨probed_tree 1, by decide, by decide⟩, trivial⟩,
    ⟨⟨_, _, rfl, rets_tree 1⟩, trivial⟩, ⟨⟨_, _, rfl, rets_tree 0⟩, trivial⟩,
    ⟨⟨probed_tree 0, by decide, by decide⟩, trivial⟩,
    ⟨⟨probed_tree 1, by decide, by decide⟩, trivial⟩,
    ⟨⟨_, _, rfl, rets_tree 1⟩, trivial⟩, ⟨⟨_, _, rfl, rets_tree 0⟩, trivial⟩, trivial⟩

theorem lossesSeen_again : LossesSeen treeConfig againLog := lossesSeen_of_take (by decide)

theorem aggregated_whole_again :
    ∃ sample events calls, Whole againLog sample events calls ∧
      calls.map (fun c => (c.funcname, c.elapsed)) = [("A", 100), ("R", 300)] := by
  have hqueue : delivered treeKey (EventManager.sampleArrivals (taken againLog).dropLast ++
      [((taken againLog).getLast (by decide), EventManager.sampleEnv)]) <+: taken againLog :=
    ⟨[], rfl⟩
  obtain ⟨sample, hsample⟩ := aggregated_whole attached_tree apart_tree rfl treeKey
    (fresh_empty treeFns) rfl callsAgain along_callsAgain lossesSeen_again _ _ rfl hqueue rfl
  exact ⟨sample, _, _, hsample, rfl⟩

/-- `R` calls `A` twice; the first return and the second entry are lost. -/
def callsTwice : List Step :=
  [.call treeFns[0]? 4096 (hitAt 0 true), .call treeFns[1]? 4000 (hitAt 100 true),
    .ret 15 (hitAt 200 false), .call treeFns[1]? 4000 (hitAt 300 false),
    .ret 15 (hitAt 400 true), .ret 15 (hitAt 500 true)]

def twiceLog : List CallEvent := (Execution.run treeKernel treeKey {} callsTwice).log

theorem along_callsTwice :
    Execution.Along treeKernel treeKey
      (fun s x => x.Valid treeFns treeKey s.goroutine ∧ x.Plain) {} callsTwice :=
  ⟨⟨⟨probed_tree 0, by decide, by decide⟩, trivial⟩,
    ⟨⟨probed_tree 1, by decide, by decide⟩, trivial⟩,
    ⟨⟨_, _, rfl, rets_tree 1⟩, trivial⟩, ⟨⟨probed_tree 1, by decide, by decide⟩, trivial⟩,
    ⟨⟨_, _, rfl, rets_tree 1⟩, trivial⟩, ⟨⟨_, _, rfl, rets_tree 0⟩, trivial⟩, trivial⟩

/-- The entry of the first call of `A` is paired with the return of the second. -/
theorem losses_paired :
    Execution.Along treeKernel treeKey
        (fun s x => x.Valid treeFns treeKey s.goroutine ∧ x.Plain) {} callsTwice ∧
      ∃ event events calls, event.key = treeKey ∧
        delivered treeKey (EventManager.sampleArrivals (taken twiceLog).dropLast ++
          [(event, EventManager.sampleEnv)]) = taken twiceLog ∧
        (EventManager.handle treeConfig EventManager.sampleEnv (EventManager.handleAll treeConfig {}
            (EventManager.sampleArrivals (taken twiceLog).dropLast)).1 event).2 =
          .aggregated events calls false ∧
        calls.map (fun c => (c.funcname, c.elapsed)) = [("A", 300), ("R", 500)] ∧
        ¬ ∃ sample, Whole twiceLog sample events calls := by
  refine ⟨along_callsTwice, (taken twiceLog).getLast (by decide), _, _, rfl, rfl, rfl, rfl, ?_⟩
  rintro ⟨sample, h⟩
  obtain ⟨before, after, hlog⟩ := h.part
  have hlen : 4 = sample.length := by
    have hlen := congrArg List.length h.records
    rw [List.length_map, List.length_map] at hlen
    exact hlen
  have htotal : 6 = before.length + sample.length + after.length := by
    have htotal := congrArg List.length hlog
    rw [List.length_append, List.length_append] at htotal
    exact htotal
  obtain ⟨t, ht, hlost⟩ : ∃ t, twiceLog[2]? = some t ∧ t.pushed = false := ⟨_, rfl, rfl⟩
  rw [hlog, List.append_assoc, List.getElem?_append_right (by omega),
    List.getElem?_append_left (by omega)] at ht
  have hpushed := h.pushed t (List.mem_of_getElem? ht)
  rw [hlost] at hpushed
  cases hpushed

end GoFtrace.Tracing
