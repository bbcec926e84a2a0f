import GoFtrace.Lib.Simulation
import GoFtrace.Tracing.Poll
import GoFtrace.Tracing.Session

/-!
# The event loop

`Start` of `cmd/tracer.go` as it runs: the probes on the CPUs, the goroutine of `PollEvents`, the
channel, the loop that handles what it receives, its tickers and the interrupt. An event is on
its way through the goroutine, the channel and the loop while the others go on.

* `poll_simulation`: the goroutine, the channel and the loop are those of `Poll`.
* `session_simulation`: with the events on their way put back in the queue, it is a session.
* `loop_refines`: every run is the run of a session.
* `loop_reports`: what the loop leaves for the final report.
-/

namespace GoFtrace.Tracing

/-! ## Sessions with events on their way -/

namespace Session

/-- `mgr.Handle` of an event that the loop has received. -/
def handleEvent (cfg : EventManager.Config) (s : Session) (env : EventManager.Env)
    (event : Bpf.Event) : Session :=
  let manager := (EventManager.handle cfg env s.system.manager event).1
  { s with
    system := { s.system with
      kernel := { s.system.kernel with
        typeRecipes := installed s.system.manager manager s.system.kernel.typeRecipes }
      manager := manager }
    handled := s.handled ++ [(event, env)] }

/-- The events in the queue of the kernel. -/
def setQueue (s : Session) (queue : List Bpf.Event) : Session :=
  { s with system := { s.system with kernel := { s.system.kernel with eventQueue := queue } } }

/-- Some events are put back in front of the queue. -/
def behind (s : Session) (q : List Bpf.Event) : Session :=
  { s with system := { s.system with kernel := s.system.kernel.behind q } }

section
variable (bcfg : Bpf.Config) (cfg : EventManager.Config) (s : Session) (q : List Bpf.Event)

theorem hit_behind (cpu : Nat) (a : Bpf.Action) :
    (s.behind q).hit bcfg cpu a = (s.hit bcfg cpu a).behind q := by
  have hcpu : Bpf.step bcfg { (s.system.kernel.behind q) with stats := s.cpus.getD cpu {} } a =
      ((Bpf.step bcfg { s.system.kernel with stats := s.cpus.getD cpu {} } a).1.behind q,
        (Bpf.step bcfg { s.system.kernel with stats := s.cpus.getD cpu {} } a).2) :=
    Bpf.step_behind bcfg { s.system.kernel with stats := s.cpus.getD cpu {} } q a
  unfold Session.hit Bpf.PerCpu.step behind System.kernelStep
  dsimp only
  rw [hcpu, Bpf.step_behind]
  rfl

theorem handle_behind (env : EventManager.Env) (event : Bpf.Event) :
    (s.behind (event :: q)).handle cfg env = (s.handleEvent cfg env event).behind q := rfl

theorem setDenominator_behind (r : Sampler.RateSampler × UInt32 × Bool) :
    (s.behind q).setDenominator r = (s.setDenominator r).behind q := by
  unfold setDenominator
  split <;> rfl

theorem sampling_behind (raise : Sampler.Raised) (heapAlloc : UInt64) :
    (s.behind q).sampling raise heapAlloc = (s.sampling raise heapAlloc).behind q :=
  setDenominator_behind (s.closeWindow heapAlloc).1 q _

theorem summary_behind : (s.behind q).summary = s.summary.behind q := rfl

end

/-- Setting the denominator is a move of the system, or none. -/
theorem setDenominator_moves (bcfg : Bpf.Config) (cfg : EventManager.Config) (s : Session)
    (r : Sampler.RateSampler × UInt32 × Bool) :
    ∃ moves, (s.setDenominator r).system = s.system.run bcfg cfg moves := by
  unfold setDenominator
  split
  · exact ⟨[.kernel (.setSampleDenominator r.2.1)], rfl⟩
  · exact ⟨[], rfl⟩

/-- A session is a run of the system. -/
theorem run_moves (bcfg : Bpf.Config) (cfg : EventManager.Config) (raise : Sampler.Raised)
    (adaptiveSample : Bool) (memoryLimit : UInt64) {ncpu : Nat} (heapAlloc : UInt64)
    (moves : List (Move ncpu)) :
    ∃ moves', ((start raise adaptiveSample memoryLimit ncpu heapAlloc).run bcfg cfg raise
      moves).system = System.run bcfg cfg {} moves' := by
  refine @run_induction bcfg cfg raise ncpu
    (fun s => ∃ moves', s.system = System.run bcfg cfg {} moves') (fun s move h => ?_) moves _ ?_
  · obtain ⟨before, hbefore⟩ := h
    have hstep : ∃ after, (s.step bcfg cfg raise move).system = s.system.run bcfg cfg after := by
      cases move with
      | hit cpu program h => exact ⟨[.kernel (program.action h)], rfl⟩
      | handle env => exact ⟨[.deliver env], rfl⟩
      | sampling heapAlloc => exact setDenominator_moves bcfg cfg (s.closeWindow heapAlloc).1 _
      | summary => exact ⟨[], rfl⟩
    obtain ⟨after, hafter⟩ := hstep
    refine ⟨before ++ after, ?_⟩
    rw [System.run_append, ← hbefore]
    exact hafter
  · exact setDenominator_moves bcfg cfg
      { cpus := List.replicate ncpu {}
        sampler := Sampler.RateSampler.choose adaptiveSample memoryLimit } _

end Session

/-! ## States and moves -/

namespace Loop

/-- The variables of `Start`, the kernel and the manager, and where the goroutine of `PollEvents`
and the loop are. -/
structure State where
  session : Session
  poll : Poll.State
  /-- The goroutine takes its events from the queue of the kernel. -/
  queue : poll.queue = session.system.kernel.eventQueue

inductive Move (ncpu : Nat) where
  /-- A probe is hit on a CPU, and this is the event that the program pushes. -/
  | hit (cpu : Fin ncpu) (program : Session.Program) (h : Bpf.Hit) (event : Option Bpf.Event)
  /-- A move of the goroutine or of the loop. -/
  | control (a : Poll.Move)
  /-- `mgr.Handle` of the event received. -/
  | handled (env : EventManager.Env)
  /-- `mgr.Handle` returns an error, and the loop returns it. -/
  | failed (env : EventManager.Env)
  /-- `<-samplingCh`, with the heap usage read. -/
  | sampling (heapAlloc : UInt64)
  /-- `<-summaryCh`. -/
  | summary

end Loop

/-- The moves that neither push nor handle an event, and are no tick. -/
def Poll.Move.Control : Poll.Move → Prop
  | .push _ | .handled | .timer => False
  | _ => True

namespace Loop

section
variable (bcfg : Bpf.Config) (cfg : EventManager.Config) (raise : Sampler.Raised) {ncpu : Nat}

/-- The moves there are. The queue takes an event when there is room. A tick may fail, and what
it has changed by then is not read any more. -/
inductive Step : State → Move ncpu → State → Prop
  | quiet {t t' : State} {cpu : Fin ncpu} {program : Session.Program} {h : Bpf.Hit}
      (hevent : (Bpf.step bcfg t.session.system.kernel (program.action h)).2 = none)
      (hsession : t'.session = t.session.hit bcfg cpu (program.action h))
      (hpoll : t'.poll = t.poll) : Step t (.hit cpu program h none) t'
  | push {t t' : State} {cpu : Fin ncpu} {program : Session.Program} {h : Bpf.Hit} {e : Bpf.Event}
      (hevent : (Bpf.step bcfg t.session.system.kernel (program.action h)).2 = some e)
      (hroom : h.pushOk = t.session.system.hasRoom)
      (hsession : t'.session = t.session.hit bcfg cpu (program.action h))
      (hpoll : Poll.Step t.poll (.push e) t'.poll) : Step t (.hit cpu program h (some e)) t'
  | control {t t' : State} {a : Poll.Move} (hcontrol : a.Control)
      (hfail : a = .fail → t.poll.receiver = .select)
      (hsession : t'.session = t.session.setQueue t'.poll.queue)
      (hpoll : Poll.Step t.poll a t'.poll) : Step t (.control a) t'
  | handled {t t' : State} {env : EventManager.Env} {e : Bpf.Event}
      (hevent : t.poll.received.getLast? = some e)
      (hsession : t'.session = t.session.handleEvent cfg env e)
      (hpoll : Poll.Step t.poll .handled t'.poll) : Step t (.handled env) t'
  | failed {t t' : State} {env : EventManager.Env} {e : Bpf.Event}
      (hevent : t.poll.received.getLast? = some e) (hreceiver : t.poll.receiver = .handling)
      (hsession : t'.session = t.session.handleEvent cfg env e)
      (hpoll : Poll.Step t.poll .fail t'.poll) : Step t (.failed env) t'
  | sampling {t t' : State} {heapAlloc : UInt64}
      (hsession : t'.session = t.session.sampling raise heapAlloc)
      (hpoll : Poll.Step t.poll .timer t'.poll) : Step t (.sampling heapAlloc) t'
  | summary {t t' : State} (hsession : t'.session = t.session.summary)
      (hpoll : Poll.Step t.poll .timer t'.poll) : Step t .summary t'

end

/-- What a move means to the goroutine, the channel and the loop. -/
def Move.poll {ncpu : Nat} : Move ncpu → Option Poll.Move
  | .hit _ _ _ event => event.map .push
  | .control a => some a
  | .handled _ => some .handled
  | .failed _ => some .fail
  | .sampling _ | .summary => some .timer

/-- What a move means to the session. -/
def Move.session {ncpu : Nat} : Move ncpu → Option (Session.Move ncpu)
  | .hit cpu program h _ => some (.hit cpu program h)
  | .control _ => none
  | .handled env | .failed env => some (.handle env)
  | .sampling heapAlloc => some (.sampling heapAlloc)
  | .summary => some .summary

/-- No call fails. -/
def Move.Regular {ncpu : Nat} : Move ncpu → Prop
  | .control a => a.Regular
  | .failed _ => False
  | _ => True

theorem start_eventQueue (raise : Sampler.Raised) (adaptiveSample : Bool) (memoryLimit : UInt64)
    (ncpu : Nat) (heapAlloc : UInt64) :
    (Session.start raise adaptiveSample memoryLimit ncpu heapAlloc).system.kernel.eventQueue =
      [] := by
  unfold Session.start Session.setDenominator
  dsimp only
  split <;> rfl

/-- The state in which the loop starts. -/
def start (raise : Sampler.Raised) (adaptiveSample : Bool) (memoryLimit : UInt64) (ncpu : Nat)
    (heapAlloc : UInt64) : State where
  session := Session.start raise adaptiveSample memoryLimit ncpu heapAlloc
  poll := {}
  queue := (start_eventQueue raise adaptiveSample memoryLimit ncpu heapAlloc).symm

/-- The state after a move of the goroutine or of the loop. -/
def State.withPoll (t : State) (poll : Poll.State) : State where
  session := t.session.setQueue poll.queue
  poll := poll
  queue := rfl

/-- The events that the goroutine has taken and the manager has not handled. -/
def State.inFlight (t : State) : List Bpf.Event :=
  t.poll.received.drop t.session.handled.length ++ t.poll.poller.hand

/-- The session with these events back in the queue. -/
def State.restored (t : State) : Session := t.session.behind t.inFlight

/-! ## The way of an event -/

/-- What a move of the goroutine or of the loop does to the events on their way. -/
theorem control_flow {s s' : Poll.State} {a : Poll.Move} (hstep : Poll.Step s a s')
    (ha : a.Control) (hfail : a = .fail → s.receiver = .select) :
    s'.received ++ s'.poller.hand ++ s'.queue = s.received ++ s.poller.hand ++ s.queue ∧
      ((s'.receiver = .handling ↔ s.receiver = .handling) ∧ s'.received = s.received ∨
        s.receiver = .select ∧ s'.receiver = .handling ∧ ∃ e, s'.received = s.received ++ [e]) := by
  cases hstep with
  | push => exact ha.elim
  | full => exact ha.elim
  | handled => exact ha.elim
  | timer => exact ha.elim
  | top hp => exact ⟨by rw [hp]; rfl, .inl ⟨.rfl, rfl⟩⟩
  | @empty draining hp =>
    refine ⟨?_, .inl ⟨.rfl, rfl⟩⟩
    rw [hp]
    cases draining <;> rfl
  | @take draining e queue hp hq =>
    refine ⟨?_, .inl ⟨.rfl, rfl⟩⟩
    rw [hp, hq]
    cases draining <;> simp [Poll.Poller.hand]
  | close hp => exact ⟨by rw [hp]; rfl, .inl ⟨.rfl, rfl⟩⟩
  | lookupError hp => exact ⟨by rw [hp]; rfl, .inl ⟨.rfl, rfl⟩⟩
  | doneIdle hp => exact ⟨by rw [hp]; rfl, .inl ⟨.rfl, rfl⟩⟩
  | doneOffer hp => exact ⟨by rw [hp]; rfl, .inl ⟨.rfl, rfl⟩⟩
  | ticker hp => exact ⟨by rw [hp]; rfl, .inl ⟨.rfl, rfl⟩⟩
  | offered hp hr =>
    refine ⟨?_, .inr ⟨hr, rfl, _, rfl⟩⟩
    rw [hp]
    simp [Poll.Poller.hand]
  | sent hp hr =>
    refine ⟨?_, .inr ⟨hr, rfl, _, rfl⟩⟩
    rw [hp]
    simp [Poll.Poller.hand]
  | sentErr hp hr => exact ⟨by rw [hp]; rfl, .inl ⟨by simp [hr], rfl⟩⟩
  | interrupt hr => exact ⟨rfl, .inl ⟨by simp [hr], rfl⟩⟩
  | stopTracing hr => exact ⟨rfl, .inl ⟨by simp [hr], rfl⟩⟩
  | stopPolling hr => exact ⟨rfl, .inl ⟨by simp [hr], rfl⟩⟩
  | failHandle hr => cases hr.symm.trans (hfail rfl)
  | failTimer hr => exact ⟨rfl, .inl ⟨by simp [hr], rfl⟩⟩
  | leave _ hr => exact ⟨rfl, .inl ⟨by simp [hr], rfl⟩⟩

theorem push_poll {s s' : Poll.State} {e : Bpf.Event} (hstep : Poll.Step s (.push e) s') :
    s'.poller = s.poller ∧ s'.receiver = s.receiver ∧ s'.received = s.received := by
  cases hstep with
  | push => exact ⟨rfl, rfl, rfl⟩
  | full => exact ⟨rfl, rfl, rfl⟩

theorem handled_poll {s s' : Poll.State} (hstep : Poll.Step s .handled s') :
    s.receiver = .handling ∧ s' = { s with receiver := .select } := by
  cases hstep with
  | handled hr => exact ⟨hr, rfl⟩

theorem fail_poll {s s' : Poll.State} (hstep : Poll.Step s .fail s') :
    s' = { s with receiver := .left, cancelled := true } := by
  cases hstep with
  | failHandle => rfl
  | failTimer => rfl

theorem timer_poll {s s' : Poll.State} (hstep : Poll.Step s .timer s') : s' = s := by
  cases hstep with
  | timer => rfl

/-- The manager has handled the events received, but for the one in `mgr.Handle`. -/
structure Linked (t : State) : Prop where
  idle : t.poll.receiver ≠ .handling → t.poll.received = t.session.handled.map Prod.fst
  handling : t.poll.receiver = .handling →
    ∃ e, t.poll.received = t.session.handled.map Prod.fst ++ [e]

/-- What is received comes behind what is handled. -/
theorem Linked.received {t : State} (h : Linked t) :
    t.poll.received =
      t.session.handled.map Prod.fst ++ t.poll.received.drop t.session.handled.length := by
  by_cases hr : t.poll.receiver = .handling
  · obtain ⟨e, he⟩ := h.handling hr
    rw [he, List.drop_left' (by rw [List.length_map])]
  · rw [h.idle hr, List.drop_eq_nil_of_le (by rw [List.length_map]), List.append_nil]

/-- The event in `mgr.Handle` is the first one on its way. -/
theorem Linked.inFlight {t : State} (h : Linked t) (hr : t.poll.receiver = .handling)
    {e : Bpf.Event} (he : t.poll.received.getLast? = some e) :
    t.poll.received = t.session.handled.map Prod.fst ++ [e] ∧
      t.inFlight = e :: t.poll.poller.hand := by
  obtain ⟨e', he'⟩ := h.handling hr
  rw [he', List.getLast?_concat, Option.some.injEq] at he
  subst he
  refine ⟨he', ?_⟩
  rw [State.inFlight, he', List.drop_left' (by rw [List.length_map])]
  rfl

/-! ## Two simulations -/

section
variable {bcfg : Bpf.Config} {cfg : EventManager.Config} {raise : Sampler.Raised} {ncpu : Nat}

theorem sampling_handled (s : Session) (heapAlloc : UInt64) :
    (s.sampling raise heapAlloc).handled = s.handled := by
  unfold Session.sampling Session.setDenominator
  dsimp only
  split <;> rfl

theorem Linked.congr {t t' : State} (h : Linked t)
    (hreceiver : t'.poll.receiver = .handling ↔ t.poll.receiver = .handling)
    (hreceived : t'.poll.received = t.poll.received)
    (hhandled : t'.session.handled = t.session.handled) : Linked t' where
  idle hr := by
    rw [hreceived, hhandled]
    exact h.idle fun hr' => hr (hreceiver.mpr hr')
  handling hr := by
    rw [hreceived, hhandled]
    exact h.handling (hreceiver.mp hr)

/-- The loop is done with the event in `mgr.Handle`. -/
theorem Linked.done {t t' : State} (h : Linked t) {env : EventManager.Env} {e : Bpf.Event}
    (hr : t.poll.receiver = .handling) (he : t.poll.received.getLast? = some e)
    (hsession : t'.session = t.session.handleEvent cfg env e)
    (hreceived : t'.poll.received = t.poll.received) (hr' : t'.poll.receiver ≠ .handling) :
    Linked t' where
  idle _ := by
    rw [hreceived, hsession, (h.inFlight hr he).1, Session.handleEvent, List.map_append]
    rfl
  handling hhandling := absurd hhandling hr'

theorem Linked.step {t t' : State} {a : Move ncpu} (hstep : Step bcfg cfg raise t a t')
    (h : Linked t) : Linked t' := by
  cases hstep with
  | quiet _ hsession hpoll =>
    refine h.congr ?_ ?_ ?_
    · rw [hpoll]
    · rw [hpoll]
    · rw [hsession]
      rfl
  | push _ _ hsession hpoll =>
    obtain ⟨-, hreceiver, hreceived⟩ := push_poll hpoll
    refine h.congr ?_ hreceived ?_
    · rw [hreceiver]
    · rw [hsession]
      rfl
  | control hcontrol hfail hsession hpoll =>
    have hhandled : t'.session.handled = t.session.handled := by
      rw [hsession]
      rfl
    obtain ⟨-, ⟨hreceiver, hreceived⟩ | ⟨hselect, hhandling, e, hreceived⟩⟩ :=
      control_flow hpoll hcontrol hfail
    · exact h.congr hreceiver hreceived hhandled
    · refine ⟨fun hr => absurd hhandling hr, fun _ => ⟨e, ?_⟩⟩
      rw [hreceived, hhandled, h.idle]
      rw [hselect]
      nofun
  | handled hevent hsession hpoll =>
    obtain ⟨hr, hpoll'⟩ := handled_poll hpoll
    refine h.done hr hevent hsession ?_ ?_
    · rw [hpoll']
    · rw [hpoll']
      nofun
  | failed hevent hreceiver hsession hpoll =>
    refine h.done hreceiver hevent hsession ?_ ?_
    · rw [fail_poll hpoll]
    · rw [fail_poll hpoll]
      nofun
  | sampling hsession hpoll =>
    refine h.congr ?_ ?_ ?_
    · rw [timer_poll hpoll]
    · rw [timer_poll hpoll]
    · rw [hsession, sampling_handled]
  | summary hsession hpoll =>
    refine h.congr ?_ ?_ ?_
    · rw [timer_poll hpoll]
    · rw [timer_poll hpoll]
    · rw [hsession]
      rfl

theorem linked_start (adaptiveSample : Bool) (memoryLimit : UInt64) (heapAlloc : UInt64) :
    Linked (start raise adaptiveSample memoryLimit ncpu heapAlloc) where
  idle _ := by
    unfold start Session.start Session.setDenominator
    dsimp only
    split <;> rfl
  handling hr := by cases hr

/-- The goroutine, the channel and the loop run as they do when events come from anywhere. -/
theorem poll_simulation :
    Lib.Simulation (@Step bcfg cfg raise ncpu) Poll.Step (fun _ => True) State.poll
      Move.poll where
  kept _ _ := trivial
  silent hstep _ hlabel := by
    cases hstep with
    | quiet _ _ hpoll => exact hpoll
    | _ => cases hlabel
  visible hstep _ hlabel := by
    cases hstep with
    | quiet => cases hlabel
    | push _ _ _ hpoll => exact Option.some.inj hlabel ▸ hpoll
    | control _ _ _ hpoll => exact Option.some.inj hlabel ▸ hpoll
    | handled _ _ hpoll => exact Option.some.inj hlabel ▸ hpoll
    | failed _ _ _ hpoll => exact Option.some.inj hlabel ▸ hpoll
    | sampling _ hpoll => exact Option.some.inj hlabel ▸ hpoll
    | summary _ hpoll => exact Option.some.inj hlabel ▸ hpoll

/-! ## The session -/

/-- Two states whose sessions differ in the queue only are restored to the same session, when the
events on their way and in the queue are the same. -/
theorem restored_setQueue {t t' : State} (hsession : t'.session = t.session.setQueue t'.poll.queue)
    (hflow : t'.inFlight ++ t'.poll.queue = t.inFlight ++ t.poll.queue) :
    t'.restored = t.restored := by
  unfold State.restored
  rw [hsession]
  unfold Session.behind Session.setQueue Bpf.Maps.behind
  dsimp only
  rw [hflow, t.queue]

theorem restored_control {t t' : State} {a : Poll.Move} (h : Linked t) (hcontrol : a.Control)
    (hfail : a = .fail → t.poll.receiver = .select)
    (hsession : t'.session = t.session.setQueue t'.poll.queue)
    (hpoll : Poll.Step t.poll a t'.poll) : t'.restored = t.restored := by
  refine restored_setQueue hsession ?_
  obtain ⟨hflow, hreceived⟩ := control_flow hpoll hcontrol hfail
  have hhandled : t'.session.handled = t.session.handled := by
    rw [hsession]
    rfl
  have hlink := h.received
  -- what is received stays behind what is handled
  have hlink' : t'.poll.received =
      t.session.handled.map Prod.fst ++ t'.poll.received.drop t.session.handled.length := by
    rcases hreceived with ⟨-, heq⟩ | ⟨-, -, e, heq⟩
    · rw [heq]
      exact hlink
    · have hlen : t.session.handled.length ≤ t.poll.received.length := by
        rw [hlink, List.length_append, List.length_map]
        omega
      rw [heq, List.drop_append_of_le_length hlen, ← List.append_assoc, ← hlink]
  rw [hlink, hlink'] at hflow
  rw [State.inFlight, State.inFlight, hhandled]
  simpa [List.append_assoc] using hflow

theorem inFlight_congr {t t' : State} (hpoller : t'.poll.poller = t.poll.poller)
    (hreceived : t'.poll.received = t.poll.received)
    (hhandled : t'.session.handled = t.session.handled) : t'.inFlight = t.inFlight := by
  rw [State.inFlight, State.inFlight, hpoller, hreceived, hhandled]

theorem restored_handled {t t' : State} (h : Linked t) {env : EventManager.Env} {e : Bpf.Event}
    (hr : t.poll.receiver = .handling) (he : t.poll.received.getLast? = some e)
    (hsession : t'.session = t.session.handleEvent cfg env e)
    (hpoller : t'.poll.poller = t.poll.poller) (hreceived : t'.poll.received = t.poll.received) :
    t'.restored = t.restored.handle cfg env := by
  obtain ⟨hlink, hflight⟩ := h.inFlight hr he
  have hflight' : t'.inFlight = t.poll.poller.hand := by
    have hlen : t'.session.handled.length = t.session.handled.length + 1 := by
      rw [hsession, Session.handleEvent, List.length_append, List.length_singleton]
    rw [State.inFlight, hpoller, hreceived, hlen, hlink, List.drop_eq_nil_of_le, List.nil_append]
    rw [List.length_append, List.length_map, List.length_singleton]
  rw [State.restored, State.restored, hflight, hflight', Session.handle_behind, hsession]

/-- With the events on their way put back in the queue, every move is one of the session, and
those that only send an event on its way are none. -/
theorem session_simulation :
    Lib.Simulation (@Step bcfg cfg raise ncpu)
      (fun s b s' => s' = s.step bcfg cfg raise b) Linked State.restored Move.session where
  kept hstep h := h.step hstep
  silent hstep h hlabel := by
    cases hstep with
    | control hcontrol hfail hsession hpoll =>
      exact restored_control h hcontrol hfail hsession hpoll
    | _ => cases hlabel
  visible hstep h hlabel := by
    cases hstep with
    | quiet _ hsession hpoll =>
      cases hlabel
      rw [State.restored, inFlight_congr (congrArg _ hpoll) (congrArg _ hpoll) (hsession ▸ rfl),
        hsession, ← Session.hit_behind]
      rfl
    | push _ _ hsession hpoll =>
      cases hlabel
      obtain ⟨hpoller, -, hreceived⟩ := push_poll hpoll
      rw [State.restored, inFlight_congr hpoller hreceived (hsession ▸ rfl), hsession,
        ← Session.hit_behind]
      rfl
    | control => cases hlabel
    | handled hevent hsession hpoll =>
      cases hlabel
      obtain ⟨hr, hpoll'⟩ := handled_poll hpoll
      refine restored_handled h hr hevent hsession ?_ ?_
      · rw [hpoll']
      · rw [hpoll']
    | failed hevent hreceiver hsession hpoll =>
      cases hlabel
      refine restored_handled h hreceiver hevent hsession ?_ ?_
      · rw [fail_poll hpoll]
      · rw [fail_poll hpoll]
    | sampling hsession hpoll =>
      cases hlabel
      have hsame := timer_poll hpoll
      rw [State.restored, inFlight_congr (congrArg _ hsame) (congrArg _ hsame)
        (by rw [hsession, sampling_handled]), hsession, ← Session.sampling_behind]
      rfl
    | summary hsession hpoll =>
      cases hlabel
      have hsame := timer_poll hpoll
      rw [State.restored, inFlight_congr (congrArg _ hsame) (congrArg _ hsame) (hsession ▸ rfl),
        hsession, ← Session.summary_behind]
      rfl

end

/-! ## Regular runs -/

theorem run_poll {s s' : Poll.State} {moves : List Poll.Move}
    (hrun : Lib.Run Poll.Step s moves s') : Poll.Run s moves s' := by
  induction hrun with
  | nil => exact .nil _
  | cons hstep _ ih => exact .cons hstep ih

section
variable {bcfg : Bpf.Config} {cfg : EventManager.Config} {raise : Sampler.Raised} {ncpu : Nat}

/-- A regular move is a regular one of the goroutine, the channel and the loop. -/
theorem regular_poll {moves : List (Move ncpu)} (hmoves : ∀ a ∈ moves, a.Regular) :
    ∀ b ∈ moves.filterMap Move.poll, b.Regular := by
  intro b hb
  obtain ⟨a, ha, hab⟩ := List.mem_filterMap.mp hb
  have hregular := hmoves a ha
  cases a with
  | hit cpu program h event =>
    cases event with
    | none => cases hab
    | some e =>
      cases hab
      trivial
  | control a =>
    cases hab
    exact hregular
  | failed => exact hregular.elim
  | _ =>
    cases hab
    trivial

theorem kept_run {t t' : State} {moves : List (Move ncpu)}
    (hrun : Lib.Run (Step bcfg cfg raise) t moves t') (hmoves : ∀ a ∈ moves, a.Regular)
    (h : Poll.Kept t.poll) : Poll.Kept t'.poll := by
  have hpoll := (poll_simulation.run hrun trivial).2
  exact h.run (run_poll hpoll) (regular_poll hmoves)

end

/-! ## The end of the loop -/

/-- No probe is hit. -/
def Move.Quiet {ncpu : Nat} : Move ncpu → Prop
  | .hit .. => False
  | _ => True

section
variable {bcfg : Bpf.Config} {cfg : EventManager.Config} {raise : Sampler.Raised} {ncpu : Nat}

/-- A move without a hit is one of the goroutine or of the loop. -/
theorem Step.poll {t t' : State} {a : Move ncpu} (hstep : Step bcfg cfg raise t a t')
    (ha : a.Regular) (hquiet : a.Quiet) :
    ∃ b, b.Regular ∧ b.Quiet ∧ Poll.Step t.poll b t'.poll := by
  cases hstep with
  | quiet => exact hquiet.elim
  | push => exact hquiet.elim
  | @control _ b hcontrol _ _ hpoll =>
    refine ⟨b, ha, ?_, hpoll⟩
    cases b with
    | push => exact hcontrol.elim
    | _ => trivial
  | handled _ _ hpoll => exact ⟨.handled, trivial, trivial, hpoll⟩
  | failed => exact ha.elim
  | sampling _ hpoll => exact ⟨.timer, trivial, trivial, hpoll⟩
  | summary _ hpoll => exact ⟨.timer, trivial, trivial, hpoll⟩

/-- Once the context is cancelled and no probe is hit any more, every move does some of the work
that is left. -/
theorem run_work {t t' : State} {moves : List (Move ncpu)}
    (hrun : Lib.Run (Step bcfg cfg raise) t moves t')
    (hmoves : ∀ a ∈ moves, a.Regular ∧ a.Quiet) (h : Poll.Kept t.poll)
    (hc : t.poll.cancelled = true) :
    moves.length + t'.poll.work ≤ t.poll.work ∧ t'.poll.cancelled = true := by
  induction hrun with
  | nil => exact ⟨by simp, hc⟩
  | cons hstep _ ih =>
    obtain ⟨ha, hrest⟩ := List.forall_mem_cons.mp hmoves
    obtain ⟨b, hb, hquiet, hpoll⟩ := hstep.poll ha.1 ha.2
    obtain ⟨hc', hlt⟩ := Poll.step_work hpoll hb hquiet h hc
    obtain ⟨hle, hend⟩ := ih hrest (h.step hpoll hb) hc'
    refine ⟨?_, hend⟩
    rw [List.length_cons]
    omega

theorem control_step {t : State} {a : Poll.Move} {s : Poll.State} (hcontrol : a.Control)
    (hfail : a ≠ .fail) (hpoll : Poll.Step t.poll a s) :
    @Step bcfg cfg raise ncpu t (.control a) (t.withPoll s) :=
  .control hcontrol (fun h => absurd h hfail) rfl hpoll

theorem handled_step {t : State} (hr : t.poll.receiver = .handling) (env : EventManager.Env)
    {e : Bpf.Event} (he : t.poll.received.getLast? = some e) :
    @Step bcfg cfg raise ncpu t (.handled env)
      ⟨t.session.handleEvent cfg env e, { t.poll with receiver := .select }, t.queue⟩ :=
  .handled he rfl (.handled hr)

/-- A move of the goroutine or of the loop is a move here. -/
theorem exists_step_of_poll {t : State} (h : Linked t) (env : EventManager.Env) {b : Poll.Move}
    {s : Poll.State} (hpoll : Poll.Step t.poll b s) (hb : b.Regular) (hquiet : b.Quiet) :
    ∃ (a : Move ncpu) (t' : State), a.Regular ∧ a.Quiet ∧ Step bcfg cfg raise t a t' := by
  have hcontrol : b.Control → ∃ (a : Move ncpu) (t' : State),
      a.Regular ∧ a.Quiet ∧ Step bcfg cfg raise t a t' := by
    intro hb'
    refine ⟨.control b, t.withPoll s, hb, trivial, control_step hb' ?_ hpoll⟩
    rintro rfl
    exact hb
  cases b with
  | push => exact hquiet.elim
  | handled =>
    have hr := (handled_poll hpoll).1
    obtain ⟨e, he⟩ := h.handling hr
    have hlast : t.poll.received.getLast? = some e := by rw [he, List.getLast?_concat]
    exact ⟨.handled env, _, trivial, trivial, handled_step hr env hlast⟩
  | timer =>
    obtain rfl := timer_poll hpoll
    exact ⟨.summary, ⟨t.session.summary, t.poll, t.queue⟩, trivial, trivial, .summary rfl hpoll⟩
  | fail => exact hb.elim
  | _ => exact hcontrol trivial

/-- Once the context is cancelled, a move other than a hit is possible as long as the loop has not
left. -/
theorem exists_step {t : State} (h : Linked t) (hkept : Poll.Kept t.poll)
    (hc : t.poll.cancelled = true) (env : EventManager.Env) (hr : t.poll.receiver ≠ .left) :
    ∃ (a : Move ncpu) (t' : State), a.Regular ∧ a.Quiet ∧ Step bcfg cfg raise t a t' := by
  by_cases hclosed : t.poll.poller = .closed
  · obtain ⟨-, hstopping, hcancelling⟩ := hkept.cancelled hc
    cases hreceiver : t.poll.receiver with
    | select => exact exists_step_of_poll h env (.leave hclosed hreceiver) trivial trivial
    | handling => exact exists_step_of_poll h env (.handled hreceiver) trivial trivial
    | stopping => exact absurd hreceiver hstopping
    | cancelling => exact absurd hreceiver hcancelling
    | left => exact absurd hreceiver hr
  · obtain ⟨b, s, hb, hquiet, hpoll⟩ := Poll.exists_step hkept hc hclosed
    exact exists_step_of_poll h env hpoll hb hquiet

end

/-! ## Every run -/

section
variable (bcfg : Bpf.Config) (cfg : EventManager.Config) (raise : Sampler.Raised)
  (adaptiveSample : Bool) (memoryLimit : UInt64) {ncpu : Nat} (heapAlloc : UInt64)

theorem restored_start :
    (start raise adaptiveSample memoryLimit ncpu heapAlloc).restored =
      Session.start raise adaptiveSample memoryLimit ncpu heapAlloc := by
  have hflight : (start raise adaptiveSample memoryLimit ncpu heapAlloc).inFlight = [] := by
    rw [State.inFlight]
    exact List.append_eq_nil_iff.mpr ⟨List.drop_nil, rfl⟩
  rw [State.restored, hflight]
  rfl

theorem restored_run {moves : List (Move ncpu)} {t : State}
    (hrun : Lib.Run (Step bcfg cfg raise)
      (start raise adaptiveSample memoryLimit ncpu heapAlloc) moves t) :
    t.restored = (Session.start raise adaptiveSample memoryLimit ncpu heapAlloc).run bcfg cfg raise
      (moves.filterMap Move.session) := by
  have hlinked := @linked_start raise ncpu adaptiveSample memoryLimit heapAlloc
  have hsession := (session_simulation.run hrun hlinked).2.eq_foldl
  rw [restored_start] at hsession
  exact hsession

/-- Every run of the probes, the goroutine of `PollEvents`, the channel and the loop, whatever the
order and whatever fails: with the events on their way put back in the queue it is the run of a
session, in which the loop takes the oldest event out of the queue and handles it at once, and of
the system of the probe programs and the manager. -/
theorem loop_refines {moves : List (Move ncpu)} {t : State}
    (hrun : Lib.Run (Step bcfg cfg raise)
      (start raise adaptiveSample memoryLimit ncpu heapAlloc) moves t) :
    t.restored = (Session.start raise adaptiveSample memoryLimit ncpu heapAlloc).run bcfg cfg raise
        (moves.filterMap Move.session) ∧
      ∃ moves', t.restored.system = System.run bcfg cfg {} moves' := by
  have hsession := restored_run bcfg cfg raise adaptiveSample memoryLimit heapAlloc hrun
  refine ⟨hsession, ?_⟩
  rw [hsession]
  apply Session.run_moves

/-- What the loop leaves behind when nothing failed. -/
structure Reports (t : State) : Prop where
  /-- What was pushed before the probes were detached is handled. -/
  drained : ∃ before, t.poll.atStop = some before ∧ before <+: t.session.handled.map Prod.fst
  /-- What the queue took is handled in its order, up to what was pushed later. -/
  delivered : (t.session.pushes.filter Prod.snd).map Prod.fst =
    t.session.handled.map Prod.fst ++ t.session.system.kernel.eventQueue
  manager : t.session.system.manager = (EventManager.handleAll cfg {} t.session.handled).1
  tells : Session.Tells bcfg t.session (Bpf.readRuntimeStats t.session.cpus)
  /-- The queued events of the report are the events handled, if no push came later. -/
  queued : t.poll.atStop = some t.poll.pushed →
    (Bpf.readRuntimeStats t.session.cpus).emittedEvents = UInt64.ofNat t.session.handled.length

/-- In every run in which no call fails: once the interrupt has cancelled the context and no probe
is hit any more, the loop leaves after finitely many moves; and when it has left, the manager and
the counters of the final report are about the same events. -/
theorem loop_reports {moves : List (Move ncpu)} {t : State}
    (hrun : Lib.Run (Step bcfg cfg raise)
      (start raise adaptiveSample memoryLimit ncpu heapAlloc) moves t)
    (hmoves : ∀ a ∈ moves, a.Regular) :
    (t.poll.cancelled = true → ∀ (rest : List (Move ncpu)) t',
        Lib.Run (Step bcfg cfg raise) t rest t' → (∀ a ∈ rest, a.Regular ∧ a.Quiet) →
        rest.length ≤ t.poll.work ∧ (t'.poll.receiver = .left ∨
          ∃ (a : Move ncpu) (t'' : State), a.Regular ∧ a.Quiet ∧ Step bcfg cfg raise t' a t'')) ∧
      (t.poll.receiver = .left → Reports bcfg cfg t) := by
  have hstart := @linked_start raise ncpu adaptiveSample memoryLimit heapAlloc
  have hlinked : Linked t := (session_simulation.run hrun hstart).1
  have hkept : Poll.Kept t.poll := kept_run hrun hmoves Poll.kept_init
  refine ⟨fun hc rest t' hrest hquiet => ?_, fun hleft => ?_⟩
  · obtain ⟨hlen, hc'⟩ := run_work hrest hquiet hkept hc
    refine ⟨by omega, ?_⟩
    by_cases hr : t'.poll.receiver = .left
    · exact .inl hr
    · have hlinked' : Linked t' := (session_simulation.run hrest hlinked).1
      have hkept' := kept_run hrest (fun a ha => (hquiet a ha).1) hkept
      exact .inr (exists_step hlinked' hkept' hc' EventManager.sampleEnv hr)
  · have hclosed := hkept.left hleft
    have hhandled : t.poll.received = t.session.handled.map Prod.fst := by
      refine hlinked.idle ?_
      rw [hleft]
      nofun
    -- nothing is on its way, so that the session is the restored one
    have hflight : t.inFlight = [] := by
      rw [State.inFlight, hhandled, hclosed, List.drop_eq_nil_of_le (by rw [List.length_map])]
      rfl
    have hsession : t.session = (Session.start raise adaptiveSample memoryLimit ncpu heapAlloc).run
        bcfg cfg raise (moves.filterMap Move.session) := by
      rw [← restored_run bcfg cfg raise adaptiveSample memoryLimit heapAlloc hrun, State.restored,
        hflight]
      rfl
    have haccounts : Session.Accounts bcfg cfg ncpu t.session := by
      rw [hsession]
      exact Session.accounts_run bcfg cfg raise adaptiveSample memoryLimit heapAlloc _
    have hdrained := hkept.drained (by rw [hclosed]; rfl)
    rw [hhandled] at hdrained
    refine ⟨hdrained, haccounts.delivered, haccounts.manager, haccounts.tells, fun hall => ?_⟩
    obtain ⟨before, hbefore, hprefix⟩ := hdrained
    have horder := hkept.order
    rw [Option.some.inj (hbefore.symm.trans hall), horder, hhandled, hclosed] at hprefix
    have hqueue : t.poll.queue = [] := by
      have hlen := hprefix.length_le
      rw [List.length_append, List.length_append] at hlen
      exact List.length_eq_zero_iff.mp (by omega)
    rw [haccounts.tells.emitted, ← t.queue, hqueue]
    rfl

end

/-! ## A run -/

def sampleLoop : State := start (fun d _ => d) false (2 ^ 28) 1 0

/-- One probe is hit, and the interrupt comes when its event is handled. -/
def sampleMoves : List (Move 1) :=
  [.hit 0 .ent (Bpf.sampleHit 16) (some (Bpf.rootEvent Bpf.sampleConfig 1 (Bpf.sampleHit 16))),
    .control .poll, .control .poll, .control .transfer, .handled EventManager.sampleEnv,
    .control .interrupt, .control .stopTracing, .control .stopPolling,
    .control .poll, .control .poll, .control .poll, .control .leave]

theorem sampleMoves_run :
    ∃ t, Lib.Run (Step Bpf.sampleConfig (EventManager.sampleConfig true) fun d _ => d)
        sampleLoop sampleMoves t ∧
      t.poll.receiver = .left ∧ t.poll.atStop = some t.poll.pushed ∧
        t.session.handled.length = 1 := by
  let e := Bpf.rootEvent Bpf.sampleConfig 1 (Bpf.sampleHit 16)
  let pushed : State :=
    ⟨sampleLoop.session.hit Bpf.sampleConfig 0 (.ent (Bpf.sampleHit 16)),
      { queue := [e], pushed := [e] }, rfl⟩
  have hpush : Step Bpf.sampleConfig (EventManager.sampleConfig true) (fun d _ => d) sampleLoop
      (.hit (0 : Fin 1) .ent (Bpf.sampleHit 16) (some e)) pushed :=
    .push rfl rfl rfl (.push e (by decide))
  refine ⟨_, .cons hpush <| .cons (control_step trivial nofun (.top rfl)) <|
    .cons (control_step trivial nofun (.take rfl rfl)) <|
    .cons (control_step trivial nofun (.offered rfl rfl)) <|
    .cons (handled_step rfl EventManager.sampleEnv rfl) <|
    .cons (control_step trivial nofun (.interrupt rfl rfl)) <|
    .cons (control_step trivial nofun (.stopTracing rfl)) <|
    .cons (control_step trivial nofun (.stopPolling rfl)) <|
    .cons (control_step trivial nofun (.top rfl)) <|
    .cons (control_step trivial nofun (.empty rfl rfl)) <|
    .cons (control_step trivial nofun (.close rfl)) <|
    .cons (control_step trivial nofun (.leave rfl rfl)) <| .nil _, rfl, rfl, rfl⟩

/-- The session has the hit and handles its event. -/
theorem loop_refines_sample :
    ∃ t, Lib.Run (Step Bpf.sampleConfig (EventManager.sampleConfig true) fun d _ => d)
        sampleLoop sampleMoves t ∧
      t.restored =
        sampleLoop.session.run Bpf.sampleConfig (EventManager.sampleConfig true) (fun d _ => d)
          [.hit (0 : Fin 1) .ent (Bpf.sampleHit 16), .handle EventManager.sampleEnv] := by
  obtain ⟨t, hrun, -⟩ := sampleMoves_run
  exact ⟨t, hrun, (loop_refines _ _ _ false (2 ^ 28) 0 hrun).1⟩

/-- The report counts the one event. -/
theorem loop_reports_sample :
    ∃ t, Lib.Run (Step Bpf.sampleConfig (EventManager.sampleConfig true) fun d _ => d)
        sampleLoop sampleMoves t ∧
      (Bpf.readRuntimeStats t.session.cpus).emittedEvents = 1 := by
  obtain ⟨t, hrun, hleft, hstop, hlen⟩ := sampleMoves_run
  have hmoves : ∀ a ∈ sampleMoves, a.Regular := by
    simp [sampleMoves, Move.Regular, Poll.Move.Regular]
  have hreports := (loop_reports _ _ _ false (2 ^ 28) 0 hrun hmoves).2 hleft
  refine ⟨t, hrun, ?_⟩
  rw [hreports.queued hstop, hlen]
  rfl

end Loop

end GoFtrace.Tracing
