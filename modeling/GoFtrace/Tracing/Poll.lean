import GoFtrace.Bpf.Goroutine

/-!
# Polling and shutdown

`PollEvents` of `internal/bpf/bpf.go` and the event loop of `Start` in `cmd/tracer.go`: the
goroutine that takes events out of the queue, the unbuffered channel, and the loop that
receives from it and handles the interrupt. Events are pushed at any time.

* `Kept.step`: what every move preserves.
* `poll_drains`: what is pushed before the probes are detached is received, in order, before
  the channel is closed, and the channel is closed.
-/

namespace GoFtrace.Tracing

namespace Poll

open Bpf (Event)

/-! ## States and moves -/

/-- The points at which the goroutine of `PollEvents` waits or looks at shared state. -/
inductive Poller where
  /-- The head of the loop. -/
  | top (draining : Bool)
  /-- Before `LookupAndDelete`. -/
  | lookup (draining : Bool)
  /-- The `select` after an empty lookup. -/
  | idle
  /-- The `select` with an event in hand. -/
  | offer (event : Event)
  /-- `ch <- PollResult{Event: event}` while draining. -/
  | send (event : Event)
  /-- `ch <- PollResult{Err: err}`. -/
  | sendErr
  /-- Before the deferred `close(ch)`. -/
  | returning
  | closed

/-- The points of the event loop of `Start`. -/
inductive Receiver where
  /-- The `select` of the loop. -/
  | select
  /-- In `mgr.Handle`. -/
  | handling
  /-- In `StopTracing`. -/
  | stopping
  /-- Before `stopPolling`. -/
  | cancelling
  /-- Behind the loop. -/
  | left

structure State where
  queue : List Event := []
  poller : Poller := .top false
  receiver : Receiver := .select
  /-- The interrupt was handled: `signalCh`, `summaryCh` and `samplingCh` are `nil`. -/
  signalled : Bool := false
  /-- `pollCtx` is done. -/
  cancelled : Bool := false
  /-- For the record: the events pushed, those received, and those pushed when `StopTracing`
  finished. -/
  pushed : List Event := []
  received : List Event := []
  atStop : Option (List Event) := none

inductive Move where
  /-- `push_event`. -/
  | push (event : Event)
  /-- The poller goes on without waiting. -/
  | poll
  /-- `LookupAndDelete` fails for another reason than an empty queue. -/
  | lookupError
  /-- `<-ctx.Done()`. -/
  | done
  /-- `<-idleTicker.C`. -/
  | ticker
  /-- The poller sends and the loop receives. -/
  | transfer
  /-- `mgr.Handle` returns. -/
  | handled
  /-- `<-signalCh`. -/
  | interrupt
  /-- `StopTracing` returns. -/
  | stopTracing
  /-- `stopPolling`, with the assignments after it. -/
  | stopPolling
  /-- `<-summaryCh` or `<-samplingCh`. -/
  | timer
  /-- The loop returns with an error. -/
  | fail
  /-- The loop sees that the channel is closed. -/
  | leave

/-- The receiver keeps receiving and no lookup fails. -/
def Move.Regular : Move → Prop
  | .lookupError | .fail => False
  | _ => True

/-- Nothing is pushed. -/
def Move.Quiet : Move → Prop
  | .push _ => False
  | _ => True

/-- The moves of the kernel, the poller and the event loop. A `select` takes any of its cases
that is ready. -/
inductive Step : State → Move → State → Prop
  | push {s : State} (e : Event) (hroom : s.queue.length < Bpf.eventQueueEntries) :
      Step s (.push e) { s with queue := s.queue ++ [e], pushed := s.pushed ++ [e] }
  | full {s : State} (e : Event) (hfull : Bpf.eventQueueEntries ≤ s.queue.length) :
      Step s (.push e) s
  | top {s : State} {draining : Bool} (hp : s.poller = .top draining) :
      Step s .poll { s with poller := .lookup (draining || s.cancelled) }
  | empty {s : State} {draining : Bool} (hp : s.poller = .lookup draining) (hq : s.queue = []) :
      Step s .poll { s with poller := if draining then .returning else .idle }
  | take {s : State} {draining : Bool} {e : Event} {queue : List Event}
      (hp : s.poller = .lookup draining) (hq : s.queue = e :: queue) :
      Step s .poll
        { s with queue := queue, poller := if draining then .send e else .offer e }
  | close {s : State} (hp : s.poller = .returning) : Step s .poll { s with poller := .closed }
  | lookupError {s : State} {draining : Bool} (hp : s.poller = .lookup draining) :
      Step s .lookupError { s with poller := .sendErr }
  | doneIdle {s : State} (hp : s.poller = .idle) (hdone : s.cancelled = true) :
      Step s .done { s with poller := .top true }
  | doneOffer {s : State} {e : Event} (hp : s.poller = .offer e) (hdone : s.cancelled = true) :
      Step s .done { s with poller := .send e }
  | ticker {s : State} (hp : s.poller = .idle) : Step s .ticker { s with poller := .top false }
  | offered {s : State} {e : Event} (hp : s.poller = .offer e) (hr : s.receiver = .select) :
      Step s .transfer
        { s with poller := .top false, receiver := .handling, received := s.received ++ [e] }
  | sent {s : State} {e : Event} (hp : s.poller = .send e) (hr : s.receiver = .select) :
      Step s .transfer
        { s with poller := .top true, receiver := .handling, received := s.received ++ [e] }
  | sentErr {s : State} (hp : s.poller = .sendErr) (hr : s.receiver = .select) :
      Step s .transfer { s with poller := .returning, receiver := .left, cancelled := true }
  | handled {s : State} (hr : s.receiver = .handling) :
      Step s .handled { s with receiver := .select }
  | interrupt {s : State} (hr : s.receiver = .select) (hsignal : s.signalled = false) :
      Step s .interrupt { s with receiver := .stopping }
  | stopTracing {s : State} (hr : s.receiver = .stopping) :
      Step s .stopTracing { s with receiver := .cancelling, atStop := some s.pushed }
  | stopPolling {s : State} (hr : s.receiver = .cancelling) :
      Step s .stopPolling { s with receiver := .select, cancelled := true, signalled := true }
  | timer {s : State} (hr : s.receiver = .select) (hsignal : s.signalled = false) :
      Step s .timer s
  | failHandle {s : State} (hr : s.receiver = .handling) :
      Step s .fail { s with receiver := .left, cancelled := true }
  | failTimer {s : State} (hr : s.receiver = .select) (hsignal : s.signalled = false) :
      Step s .fail { s with receiver := .left, cancelled := true }
  | leave {s : State} (hp : s.poller = .closed) (hr : s.receiver = .select) :
      Step s .leave { s with receiver := .left }

/-- A sequence of moves. -/
inductive Run : State → List Move → State → Prop
  | nil (s : State) : Run s [] s
  | cons {s s' t : State} {a : Move} {moves : List Move} (hstep : Step s a s')
      (hrun : Run s' moves t) : Run s (a :: moves) t

/-! ## What is kept -/

/-- The event that the poller has taken and not yet sent. -/
def Poller.hand : Poller → List Event
  | .offer e | .send e => [e]
  | _ => []

/-- Whether the poller has seen the end of the context. -/
def Poller.draining : Poller → Bool
  | .top draining | .lookup draining => draining
  | .send _ | .returning | .closed => true
  | _ => false

/-- The poller has left its loop. -/
def Poller.finished : Poller → Bool
  | .returning | .closed => true
  | _ => false

/-- What holds in every state of a run with regular moves only. -/
structure Kept (s : State) : Prop where
  /-- An event is received, in hand or in the queue, in the order of the pushes. -/
  order : s.pushed = s.received ++ s.poller.hand ++ s.queue
  draining : s.poller.draining = true → s.cancelled = true
  noErr : s.poller ≠ .sendErr
  stopped : ∀ xs, s.atStop = some xs → xs <+: s.pushed
  detached : s.receiver = .cancelling ∨ s.cancelled = true → s.atStop ≠ none
  cancelled : s.cancelled = true →
    s.signalled = true ∧ s.receiver ≠ .stopping ∧ s.receiver ≠ .cancelling
  left : s.receiver = .left → s.poller = .closed
  /-- When the poller leaves its loop, what was pushed before the end has been received. -/
  drained : s.poller.finished = true → ∃ xs, s.atStop = some xs ∧ xs <+: s.received

theorem kept_init : Kept {} where
  order := rfl
  draining h := by cases h
  noErr h := by cases h
  stopped _ h := by cases h
  detached h := by rcases h with h | h <;> cases h
  cancelled h := by cases h
  left h := by cases h
  drained h := by cases h

/-- A move of the poller alone that changes its point only. -/
theorem Kept.setPoller {s : State} (h : Kept s) {poller : Poller}
    (hhand : poller.hand = s.poller.hand) (hdraining : poller.draining = true → s.cancelled = true)
    (herr : poller ≠ .sendErr) (hleft : s.poller ≠ .closed)
    (hdrained : poller.finished = true → ∃ xs, s.atStop = some xs ∧ xs <+: s.received) :
    Kept { s with poller := poller } where
  order := by
    dsimp only
    rw [hhand]
    exact h.order
  draining := hdraining
  noErr := herr
  stopped := h.stopped
  detached := h.detached
  cancelled := h.cancelled
  left hr := absurd (h.left hr) hleft
  drained := hdrained

/-- The loop has received the event in hand. -/
theorem Kept.received {s : State} (h : Kept s) {e : Event} {poller : Poller}
    (hhand : s.poller.hand = [e]) (hnil : poller.hand = [])
    (hdraining : poller.draining = true → s.cancelled = true) (herr : poller ≠ .sendErr)
    (hfinished : poller.finished = false) :
    Kept { s with poller := poller, receiver := .handling, received := s.received ++ [e] } where
  order := by
    dsimp only
    rw [hnil, List.append_nil, h.order, hhand]
  draining := hdraining
  noErr := herr
  stopped := h.stopped
  detached hr := by
    rcases hr with hr | hr
    · cases hr
    · exact h.detached (.inr hr)
  cancelled hc := ⟨(h.cancelled hc).1, nofun, nofun⟩
  left := nofun
  drained hf := by
    rw [hfinished] at hf
    cases hf

/-- A move of the loop that keeps the context. -/
theorem Kept.setReceiver {s : State} (h : Kept s) {receiver : Receiver}
    (hdetached : receiver = .cancelling → s.atStop ≠ none)
    (hcancelled : s.cancelled = true → receiver ≠ .stopping ∧ receiver ≠ .cancelling)
    (hleft : receiver = .left → s.poller = .closed) : Kept { s with receiver := receiver } where
  order := h.order
  draining := h.draining
  noErr := h.noErr
  stopped := h.stopped
  detached hr := by
    rcases hr with hr | hr
    · exact hdetached hr
    · exact h.detached (.inr hr)
  cancelled hc := ⟨(h.cancelled hc).1, hcancelled hc⟩
  left := hleft
  drained := h.drained

theorem Kept.step {s s' : State} {a : Move} (hstep : Step s a s') (ha : a.Regular)
    (h : Kept s) : Kept s' := by
  cases hstep with
  | push e =>
    refine ⟨?_, h.draining, h.noErr, ?_, h.detached, h.cancelled, h.left, h.drained⟩
    · dsimp only
      rw [h.order, List.append_assoc, List.append_assoc]
    · intro xs hxs
      exact (h.stopped xs hxs).trans (List.prefix_append _ _)
  | full => exact h
  | top hp =>
    refine h.setPoller (by rw [hp]; rfl) (fun hd => ?_) nofun (by rw [hp]; nofun) nofun
    rcases Bool.or_eq_true_iff.mp hd with hd | hd
    · exact h.draining (by rw [hp]; exact hd)
    · exact hd
  | @empty draining hp hq =>
    have horder := h.order
    rw [hp, hq] at horder
    cases draining with
    | false => exact h.setPoller (by rw [hp]; rfl) nofun nofun (by rw [hp]; nofun) nofun
    | true =>
      -- an empty queue while draining: everything pushed so far has been received
      have hcancelled := h.draining (by rw [hp]; rfl)
      refine h.setPoller (by rw [hp]; rfl) (fun _ => hcancelled) nofun (by rw [hp]; nofun) ?_
      intro _
      obtain ⟨xs, hxs⟩ := Option.ne_none_iff_exists'.mp (h.detached (.inr hcancelled))
      refine ⟨xs, hxs, ?_⟩
      have hprefix := h.stopped xs hxs
      rw [horder] at hprefix
      simpa [Poller.hand] using hprefix
  | @take draining e queue hp hq =>
    have horder := h.order
    rw [hp, hq] at horder
    have hdraining := h.draining
    rw [hp] at hdraining
    refine ⟨?_, ?_, ?_, h.stopped, h.detached, h.cancelled, ?_, ?_⟩
    · dsimp only
      rw [horder]
      cases draining <;> simp [Poller.hand]
    · cases draining with
      | false => exact nofun
      | true => exact fun _ => hdraining rfl
    · cases draining <;> exact nofun
    · intro hr
      rw [h.left hr] at hp
      cases hp
    · cases draining <;> exact nofun
  | close hp =>
    exact ⟨by rw [h.order, hp]; rfl, fun _ => h.draining (by rw [hp]; rfl), nofun, h.stopped,
      h.detached, h.cancelled, fun _ => rfl, fun _ => h.drained (by rw [hp]; rfl)⟩
  | lookupError => exact ha.elim
  | doneIdle hp hdone =>
    exact h.setPoller (by rw [hp]; rfl) (fun _ => hdone) nofun (by rw [hp]; nofun) nofun
  | doneOffer hp hdone =>
    exact h.setPoller (by rw [hp]; rfl) (fun _ => hdone) nofun (by rw [hp]; nofun) nofun
  | ticker hp => exact h.setPoller (by rw [hp]; rfl) nofun nofun (by rw [hp]; nofun) nofun
  | offered hp => exact h.received (by rw [hp]; rfl) rfl nofun nofun rfl
  | sent hp =>
    exact h.received (by rw [hp]; rfl) rfl (fun _ => h.draining (by rw [hp]; rfl)) nofun rfl
  | sentErr hp => exact absurd hp h.noErr
  | handled => exact h.setReceiver nofun (fun _ => ⟨nofun, nofun⟩) nofun
  | interrupt hr hsignal =>
    refine h.setReceiver nofun (fun hc => ?_) nofun
    rw [(h.cancelled hc).1] at hsignal
    cases hsignal
  | stopTracing hr =>
    have hnot : s.cancelled = false := by
      by_contra hc
      exact (h.cancelled (by simpa using hc)).2.1 hr
    refine ⟨h.order, h.draining, h.noErr, ?_, nofun, ?_, nofun, ?_⟩
    · intro xs hxs
      cases hxs
      exact List.prefix_rfl
    · intro hc
      rw [hnot] at hc
      cases hc
    · intro hf
      have hdraining : s.poller.draining = true := by
        revert hf
        dsimp only
        cases s.poller <;> simp [Poller.finished, Poller.draining]
      rw [h.draining hdraining] at hnot
      cases hnot
  | stopPolling hr =>
    exact ⟨h.order, fun _ => rfl, h.noErr, h.stopped, fun _ => h.detached (.inl hr),
      fun _ => ⟨rfl, nofun, nofun⟩, nofun, h.drained⟩
  | timer => exact h
  | failHandle => exact ha.elim
  | failTimer => exact ha.elim
  | leave hp => exact h.setReceiver nofun (fun _ => ⟨nofun, nofun⟩) fun _ => hp

theorem Kept.run {s s' : State} {moves : List Move} (hrun : Run s moves s')
    (hmoves : ∀ a ∈ moves, a.Regular) (h : Kept s) : Kept s' := by
  induction hrun with
  | nil => exact h
  | cons hstep _ ih =>
    obtain ⟨ha, hrest⟩ := List.forall_mem_cons.mp hmoves
    exact ih hrest (h.step hstep ha)

/-! ## The end -/

/-- How many moves are left to a point of the poller, for a queue of some length. -/
def Poller.work (queue : Nat) : Poller → Nat
  | .top _ => 4 * queue + 3
  | .lookup true => 4 * queue + 2
  | .lookup false => 4 * queue + 5
  | .idle => 4 * queue + 4
  | .offer _ => 4 * queue + 6
  | .send _ => 4 * queue + 5
  | .sendErr => 4 * queue + 2
  | .returning => 4 * queue + 1
  | .closed => 4 * queue

def Receiver.work : Receiver → Nat
  | .handling => 2
  | .select => 1
  | _ => 0

/-- A bound on the moves that are left once the context is cancelled. -/
def State.work (s : State) : Nat := s.poller.work s.queue.length + s.receiver.work

/-- Once the context is cancelled every move but a push does some of the work that is left. -/
theorem step_work {s s' : State} {a : Move} (hstep : Step s a s') (ha : a.Regular)
    (hquiet : a.Quiet) (h : Kept s) (hc : s.cancelled = true) :
    s'.cancelled = true ∧ s'.work < s.work := by
  obtain ⟨hsignalled, hstopping, hcancelling⟩ := h.cancelled hc
  cases hstep with
  | push => exact hquiet.elim
  | full => exact hquiet.elim
  | top hp =>
    refine ⟨hc, ?_⟩
    simp [State.work, hp, hc, Poller.work]
  | @empty draining hp hq =>
    refine ⟨hc, ?_⟩
    cases draining <;> simp [State.work, hp, hq, Poller.work]
  | @take draining e queue hp hq =>
    refine ⟨hc, ?_⟩
    cases draining <;> simp [State.work, hp, hq, Poller.work] <;> omega
  | close hp =>
    refine ⟨hc, ?_⟩
    simp [State.work, hp, Poller.work]
  | lookupError => exact ha.elim
  | doneIdle hp =>
    refine ⟨hc, ?_⟩
    simp [State.work, hp, Poller.work]
  | doneOffer hp =>
    refine ⟨hc, ?_⟩
    simp [State.work, hp, Poller.work]
  | ticker hp =>
    refine ⟨hc, ?_⟩
    simp [State.work, hp, Poller.work]
  | offered hp hr =>
    refine ⟨hc, ?_⟩
    simp [State.work, hp, hr, Poller.work, Receiver.work]
  | sent hp hr =>
    refine ⟨hc, ?_⟩
    simp [State.work, hp, hr, Poller.work, Receiver.work]
  | sentErr hp => exact absurd hp h.noErr
  | handled hr =>
    refine ⟨hc, ?_⟩
    simp [State.work, hr, Receiver.work]
  | interrupt _ hsignal =>
    rw [hsignalled] at hsignal
    cases hsignal
  | stopTracing hr => exact absurd hr hstopping
  | stopPolling hr => exact absurd hr hcancelling
  | timer _ hsignal =>
    rw [hsignalled] at hsignal
    cases hsignal
  | failHandle => exact ha.elim
  | failTimer => exact ha.elim
  | leave hp hr =>
    refine ⟨hc, ?_⟩
    simp [State.work, hr, Receiver.work]

/-- Until the channel is closed, a move other than a push is possible. -/
theorem exists_step {s : State} (h : Kept s) (hc : s.cancelled = true)
    (hopen : s.poller ≠ .closed) :
    ∃ a s', a.Regular ∧ a.Quiet ∧ Step s a s' := by
  obtain ⟨-, hstopping, hcancelling⟩ := h.cancelled hc
  cases hp : s.poller with
  | top => exact ⟨.poll, _, trivial, trivial, .top hp⟩
  | lookup =>
    cases hq : s.queue with
    | nil => exact ⟨.poll, _, trivial, trivial, .empty hp hq⟩
    | cons => exact ⟨.poll, _, trivial, trivial, .take hp hq⟩
  | idle => exact ⟨.done, _, trivial, trivial, .doneIdle hp hc⟩
  | offer => exact ⟨.done, _, trivial, trivial, .doneOffer hp hc⟩
  | send =>
    cases hr : s.receiver with
    | select => exact ⟨.transfer, _, trivial, trivial, .sent hp hr⟩
    | handling => exact ⟨.handled, _, trivial, trivial, .handled hr⟩
    | stopping => exact absurd hr hstopping
    | cancelling => exact absurd hr hcancelling
    | left => exact absurd (h.left hr) hopen
  | sendErr => exact absurd hp h.noErr
  | returning => exact ⟨.poll, _, trivial, trivial, .close hp⟩
  | closed => exact absurd hp hopen

/-- Once the context is cancelled and nothing is pushed any more, a run is no longer than the
work that is left. -/
theorem run_work {s s' : State} {moves : List Move} (hrun : Run s moves s')
    (hmoves : ∀ a ∈ moves, a.Regular ∧ a.Quiet) (h : Kept s) (hc : s.cancelled = true) :
    moves.length + s'.work ≤ s.work ∧ s'.cancelled = true := by
  induction hrun with
  | nil => exact ⟨by simp, hc⟩
  | cons hstep _ ih =>
    obtain ⟨ha, hrest⟩ := List.forall_mem_cons.mp hmoves
    obtain ⟨hc', hlt⟩ := step_work hstep ha.1 ha.2 h hc
    obtain ⟨hle, hend⟩ := ih hrest (h.step hstep ha.1) hc'
    refine ⟨?_, hend⟩
    rw [List.length_cons]
    omega

/-- In every run with regular moves: what is pushed is received once and in order, or still in
hand or in the queue; what was pushed before the probes were detached has been received when
the channel is closed; and once the context is cancelled and nothing is pushed any more, the
run ends after finitely many moves, and not before the channel is closed. -/
theorem poll_drains {moves : List Move} {s : State} (hrun : Run {} moves s)
    (hmoves : ∀ a ∈ moves, a.Regular) :
    s.pushed = s.received ++ s.poller.hand ++ s.queue ∧
      (s.poller = .closed → ∃ xs, s.atStop = some xs ∧ xs <+: s.received) ∧
      (s.cancelled = true → ∀ rest s', Run s rest s' → (∀ a ∈ rest, a.Regular ∧ a.Quiet) →
        rest.length ≤ s.work ∧
          (s'.poller = .closed ∨ ∃ a s'', a.Regular ∧ a.Quiet ∧ Step s' a s'')) := by
  have h := kept_init.run hrun hmoves
  refine ⟨h.order, fun hp => h.drained (by rw [hp]; rfl), fun hc rest s' hrest hquiet => ?_⟩
  obtain ⟨hlen, hc'⟩ := run_work hrest hquiet h hc
  refine ⟨by omega, ?_⟩
  by_cases hclosed : s'.poller = .closed
  · exact .inl hclosed
  · exact .inr (exists_step (h.run hrest fun a ha => (hquiet a ha).1) hc' hclosed)

def sampleEvent : Event := { goid := 1, pid := 1 }

/-- The interrupt comes while an event is in hand. -/
def sampleMoves : List Move :=
  [.push sampleEvent, .poll, .poll, .interrupt, .stopTracing, .stopPolling, .done, .transfer, .handled,
    .poll, .poll, .poll]

def sampleEnd : State :=
  { poller := .closed, signalled := true, cancelled := true, pushed := [sampleEvent]
    received := [sampleEvent], atStop := some [sampleEvent] }

theorem sampleMoves_run : Run {} sampleMoves sampleEnd :=
  .cons (.push sampleEvent (by decide)) <| .cons (.top rfl) <| .cons (.take rfl rfl) <|
    .cons (.interrupt rfl rfl) <| .cons (.stopTracing rfl) <| .cons (.stopPolling rfl) <|
    .cons (.doneOffer rfl rfl) <| .cons (.sent rfl rfl) <| .cons (.handled rfl) <|
    .cons (.top rfl) <| .cons (.empty rfl rfl) <| .cons (.close rfl) <| .nil _

theorem poll_drains_interrupt :
    ∃ xs, sampleEnd.atStop = some xs ∧ xs <+: sampleEnd.received := by
  have hmoves : ∀ a ∈ sampleMoves, a.Regular := by simp [sampleMoves, Move.Regular]
  exact (poll_drains sampleMoves_run hmoves).2.1 rfl

end Poll

end GoFtrace.Tracing
