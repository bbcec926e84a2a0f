import GoFtrace.Tracing.Poll

/-!
# When the loop returns early

The loop of `Start` may return with an error while the goroutine of `PollEvents` still runs; the
deferred `stopPolling` and `Detach` come next, and `Detach` sets `b.objs` to `nil`.

* `poll_stranded`: whether the goroutine can still end.
* `poll_detached`: whether it can still follow the `nil` pointer.
-/

namespace GoFtrace.Tracing

namespace Poll

/-! ## After a failure -/

/-- The loop has left, and the poller still has something to send. -/
structure Abandoned (s : State) : Prop where
  left : s.receiver = .left
  unfinished : s.poller.finished = false
  pending : s.poller = .sendErr ∨ s.poller.hand ++ s.queue ≠ []

theorem Abandoned.step {s s' : State} {a : Move} (hstep : Step s a s') (h : Abandoned s) :
    Abandoned s' := by
  obtain ⟨hleft, hopen, hpending⟩ := h
  -- the loop has left: no move of it is possible, and nothing is received
  have hgone : ∀ r, s.receiver = r → r = .left := by
    intro r hr
    rw [← hr]
    exact hleft
  cases hstep with
  | push e =>
    refine ⟨hleft, hopen, hpending.imp_right ?_⟩
    intro _
    show s.poller.hand ++ (s.queue ++ [e]) ≠ []
    simp
  | full => exact ⟨hleft, hopen, hpending⟩
  | top hp =>
    rw [hp] at hpending
    exact ⟨hleft, rfl, hpending.imp_left nofun⟩
  | empty hp hq =>
    rw [hp, hq] at hpending
    rcases hpending with herr | hnil
    · cases herr
    · exact absurd rfl hnil
  | @take draining e queue hp hq =>
    -- the event in hand waits for a receiver, whichever way it is sent
    cases draining with
    | false => exact ⟨hleft, rfl, .inr (List.cons_ne_nil _ _)⟩
    | true => exact ⟨hleft, rfl, .inr (List.cons_ne_nil _ _)⟩
  | close hp =>
    rw [hp] at hopen
    cases hopen
  | lookupError => exact ⟨hleft, rfl, .inl rfl⟩
  | doneIdle hp =>
    rw [hp] at hpending
    exact ⟨hleft, rfl, hpending.imp_left nofun⟩
  | doneOffer => exact ⟨hleft, rfl, .inr (List.cons_ne_nil _ _)⟩
  | ticker hp =>
    rw [hp] at hpending
    exact ⟨hleft, rfl, hpending.imp_left nofun⟩
  | offered _ hr => cases hgone _ hr
  | sent _ hr => cases hgone _ hr
  | sentErr _ hr => cases hgone _ hr
  | handled hr => cases hgone _ hr
  | interrupt hr => cases hgone _ hr
  | stopTracing hr => cases hgone _ hr
  | stopPolling hr => cases hgone _ hr
  | timer hr => cases hgone _ hr
  | failHandle hr => cases hgone _ hr
  | failTimer hr => cases hgone _ hr
  | leave _ hr => cases hgone _ hr

theorem Abandoned.run {s s' : State} {moves : List Move} (hrun : Run s moves s')
    (h : Abandoned s) : Abandoned s' := by
  induction hrun with
  | nil => exact h
  | cons hstep _ ih => exact ih (h.step hstep)

/-- Behind the loop nothing is received. -/
theorem received_of_left {s s' : State} {a : Move} (hstep : Step s a s')
    (hleft : s.receiver = .left) : s'.receiver = .left ∧ s'.received = s.received := by
  cases hstep with
  | offered _ hr => cases hleft.symm.trans hr
  | sent _ hr => cases hleft.symm.trans hr
  | sentErr _ hr => cases hleft.symm.trans hr
  | handled hr => cases hleft.symm.trans hr
  | interrupt hr => cases hleft.symm.trans hr
  | stopTracing hr => cases hleft.symm.trans hr
  | stopPolling hr => cases hleft.symm.trans hr
  | failHandle hr => cases hleft.symm.trans hr
  | failTimer hr => cases hleft.symm.trans hr
  | leave _ hr => cases hleft.symm.trans hr
  | _ => exact ⟨hleft, rfl⟩

theorem received_of_run {s s' : State} {moves : List Move} (hrun : Run s moves s')
    (hleft : s.receiver = .left) : s'.received = s.received := by
  induction hrun with
  | nil => rfl
  | cons hstep _ ih =>
    obtain ⟨hleft', hreceived⟩ := received_of_left hstep hleft
    exact (ih hleft').trans hreceived

/-- The loop leaves when the channel is closed, or cancels the context on its way out. -/
def LeftRight (s : State) : Prop :=
  s.receiver = .left → s.cancelled = true ∨ s.poller = .closed

theorem LeftRight.step {s s' : State} {a : Move} (hstep : Step s a s') (h : LeftRight s) :
    LeftRight s' := by
  -- a move of the poller starts from a poller that is not closed
  have hpoller : ∀ {p : Poller}, s.poller = p → p ≠ .closed → s.receiver = .left →
      s.cancelled = true := by
    intro p hp hne hleft
    apply (h hleft).resolve_right
    rw [hp]
    exact hne
  cases hstep with
  | top hp => exact fun hleft => .inl (hpoller hp nofun hleft)
  | empty hp => exact fun hleft => .inl (hpoller hp nofun hleft)
  | take hp => exact fun hleft => .inl (hpoller hp nofun hleft)
  | close => exact fun _ => .inr rfl
  | lookupError hp => exact fun hleft => .inl (hpoller hp nofun hleft)
  | doneIdle hp => exact fun hleft => .inl (hpoller hp nofun hleft)
  | doneOffer hp => exact fun hleft => .inl (hpoller hp nofun hleft)
  | ticker hp => exact fun hleft => .inl (hpoller hp nofun hleft)
  | leave hp => exact fun _ => .inr hp
  | sentErr => exact fun _ => .inl rfl
  | failHandle => exact fun _ => .inl rfl
  | failTimer => exact fun _ => .inl rfl
  | push => exact h
  | full => exact h
  | timer => exact h
  | _ => exact nofun

theorem LeftRight.run {s s' : State} {moves : List Move} (hrun : Run s moves s')
    (h : LeftRight s) : LeftRight s' := by
  induction hrun with
  | nil => exact h
  | cons hstep _ ih => exact ih (h.step hstep)

/-- With the context cancelled and nothing to send, the poller can close the channel. -/
theorem exists_close {s : State} (hc : s.cancelled = true) (hq : s.queue = [])
    (hhand : s.poller.hand = []) (herr : s.poller ≠ .sendErr) :
    ∃ moves s', Run s moves s' ∧ s'.poller = .closed := by
  have htop : ∀ t : State, t.cancelled = true → t.queue = [] → ∀ draining,
      t.poller = .top draining → ∃ moves s', Run t moves s' ∧ s'.poller = .closed := by
    intro t ht htq draining hp
    have hlookup : (Poller.lookup (draining || t.cancelled)) = .lookup true := by
      rw [ht, Bool.or_true]
    exact ⟨_, _, .cons (.top hp) (.cons (.empty hlookup htq) (.cons (.close rfl) (.nil _))), rfl⟩
  have hidle : ∀ t : State, t.cancelled = true → t.queue = [] → t.poller = .idle →
      ∃ moves s', Run t moves s' ∧ s'.poller = .closed := by
    intro t ht htq hp
    obtain ⟨moves, s', hrun, hclosed⟩ := htop { t with poller := .top false } ht htq false rfl
    exact ⟨_, s', .cons (.ticker hp) hrun, hclosed⟩
  cases hp : s.poller with
  | top draining => exact htop s hc hq draining hp
  | lookup draining =>
    cases draining with
    | true => exact ⟨_, _, .cons (.empty hp hq) (.cons (.close rfl) (.nil _)), rfl⟩
    | false =>
      obtain ⟨moves, s', hrun, hclosed⟩ := hidle { s with poller := .idle } hc hq rfl
      exact ⟨_, s', .cons (.empty hp hq) hrun, hclosed⟩
  | idle => exact hidle s hc hq hp
  | offer e =>
    rw [hp] at hhand
    cases hhand
  | send e =>
    rw [hp] at hhand
    cases hhand
  | sendErr => exact absurd hp herr
  | returning => exact ⟨_, _, .cons (.close hp) (.nil _), rfl⟩
  | closed => exact ⟨[], s, .nil s, hp⟩

/-- When the loop has left, whatever the reason, nothing more is received, and the goroutine of
`PollEvents` is stranded for ever exactly when it still had an event or an error to send. -/
theorem poll_stranded {moves : List Move} {s : State} (hrun : Run {} moves s)
    (hleft : s.receiver = .left) :
    (∀ rest s', Run s rest s' → s'.received = s.received) ∧
      ((∀ rest s', Run s rest s' → s'.poller ≠ .closed) ↔
        s.poller.finished = false ∧ (s.poller = .sendErr ∨ s.poller.hand ++ s.queue ≠ [])) := by
  refine ⟨fun rest s' hrest => received_of_run hrest hleft, fun hnever => ?_, ?_⟩
  · have hinit : LeftRight {} := nofun
    have hcancelled : s.cancelled = true :=
      (hinit.run hrun hleft).resolve_right (hnever [] s (.nil s))
    constructor
    · by_contra hfinished
      cases hp : s.poller with
      | returning => exact hnever _ _ (.cons (.close hp) (.nil _)) rfl
      | closed => exact hnever [] s (.nil s) hp
      | _ =>
        rw [hp] at hfinished
        exact hfinished rfl
    · by_contra hnone
      obtain ⟨herr, hnil⟩ := not_or.mp hnone
      obtain ⟨hhand, hq⟩ := List.append_eq_nil_iff.mp (not_not.mp hnil)
      obtain ⟨rest, s', hrest, hclosed⟩ := exists_close hcancelled hq hhand herr
      exact hnever rest s' hrest hclosed
  · rintro ⟨hopen, hpending⟩ rest s' hrest hclosed
    have habandoned : Abandoned s := ⟨hleft, hopen, hpending⟩
    have hopen' := (habandoned.run hrest).unfinished
    rw [hclosed] at hopen'
    cases hopen'

/-- A timer fails while an event is in hand. -/
def failingMoves : List Move := [.push sampleEvent, .poll, .poll, .fail]

def failingEnd : State :=
  { poller := .offer sampleEvent, receiver := .left, cancelled := true, pushed := [sampleEvent] }

theorem failingMoves_run : Run {} failingMoves failingEnd :=
  .cons (.push sampleEvent (by decide)) <| .cons (.top rfl) <| .cons (.take rfl rfl) <|
    .cons (.failTimer rfl rfl) <| .nil _

theorem poll_stranded_timer :
    ¬∃ rest s', Run failingEnd rest s' ∧ s'.poller = .closed := by
  rintro ⟨rest, s', hrest, hclosed⟩
  have hpending : failingEnd.poller = .sendErr ∨
      failingEnd.poller.hand ++ failingEnd.queue ≠ [] := .inr (List.cons_ne_nil _ _)
  exact (poll_stranded failingMoves_run rfl).2.mpr ⟨rfl, hpending⟩ rest s' hrest hclosed

/-! ## Detach -/

/-- The goroutine, the loop and `b.objs`. -/
structure Teardown where
  poll : State := {}
  /-- `b.objs` is `nil`. -/
  detached : Bool := false
  /-- The goroutine followed the `nil` pointer. -/
  panicked : Bool := false

inductive TeardownMove where
  | poll (move : Move)
  /-- `b.objs = nil` of `Detach`. -/
  | detach
  /-- `b.objs.EventQueue`. -/
  | panic

/-- `Detach` runs behind the loop, and a panic ends the program. -/
inductive TeardownStep : Teardown → TeardownMove → Teardown → Prop
  | poll {d : Teardown} {a : Move} {s : State} (hgoing : d.panicked = false)
      (hobjs : d.detached = true → ∀ draining, d.poll.poller ≠ .lookup draining)
      (hstep : Step d.poll a s) : TeardownStep d (.poll a) { d with poll := s }
  | detach {d : Teardown} (hgoing : d.panicked = false) (hleft : d.poll.receiver = .left) :
      TeardownStep d .detach { d with detached := true }
  | panic {d : Teardown} {draining : Bool} (hgoing : d.panicked = false)
      (hobjs : d.detached = true) (hp : d.poll.poller = .lookup draining) :
      TeardownStep d .panic { d with panicked := true }

inductive TeardownRun : Teardown → List TeardownMove → Teardown → Prop
  | nil (d : Teardown) : TeardownRun d [] d
  | cons {d d' t : Teardown} {a : TeardownMove} {moves : List TeardownMove}
      (hstep : TeardownStep d a d') (hrun : TeardownRun d' moves t) : TeardownRun d (a :: moves) t

def TeardownMove.Regular : TeardownMove → Prop
  | .poll a => a.Regular
  | _ => True

/-- The goroutine has ended. -/
theorem closed_step {s s' : State} {a : Move} (hstep : Step s a s') (h : s.poller = .closed) :
    s'.poller = .closed := by
  cases hstep with
  | top hp => cases h.symm.trans hp
  | empty hp => cases h.symm.trans hp
  | take hp => cases h.symm.trans hp
  | close hp => cases h.symm.trans hp
  | lookupError hp => cases h.symm.trans hp
  | doneIdle hp => cases h.symm.trans hp
  | doneOffer hp => cases h.symm.trans hp
  | ticker hp => cases h.symm.trans hp
  | offered hp => cases h.symm.trans hp
  | sent hp => cases h.symm.trans hp
  | sentErr hp => cases h.symm.trans hp
  | _ => exact h

/-- Without an error the channel is closed before `Detach`. -/
structure Orderly (d : Teardown) : Prop where
  kept : Kept d.poll
  closed : d.detached = true → d.poll.poller = .closed
  going : d.panicked = false

theorem Orderly.step {d d' : Teardown} {a : TeardownMove} (hstep : TeardownStep d a d')
    (ha : a.Regular) (h : Orderly d) : Orderly d' := by
  cases hstep with
  | poll hgoing _ hstep =>
    refine ⟨h.kept.step hstep ha, fun hobjs => ?_, hgoing⟩
    exact closed_step hstep (h.closed hobjs)
  | detach hgoing hleft => exact ⟨h.kept, fun _ => h.kept.left hleft, hgoing⟩
  | panic _ hobjs hp => cases hp.symm.trans (h.closed hobjs)

theorem Orderly.run {d d' : Teardown} {moves : List TeardownMove} (hrun : TeardownRun d moves d')
    (hmoves : ∀ a ∈ moves, a.Regular) (h : Orderly d) : Orderly d' := by
  induction hrun with
  | nil => exact h
  | cons hstep _ ih =>
    obtain ⟨ha, hrest⟩ := List.forall_mem_cons.mp hmoves
    exact ih hrest (h.step hstep ha)

/-- The points from which the goroutine comes back to a lookup. -/
def Poller.looping : Poller → Bool
  | .top _ | .lookup _ | .idle => true
  | _ => false

/-- Behind the loop an event in hand is never sent, so the goroutine does not come back. -/
theorem looping_step {s s' : State} {a : Move} (hstep : Step s a s')
    (hleft : s.receiver = .left) (h : s.poller.looping = false) : s'.poller.looping = false := by
  cases hstep with
  | push => exact h
  | full => exact h
  | top hp =>
    rw [hp] at h
    cases h
  | empty hp =>
    rw [hp] at h
    cases h
  | take hp =>
    rw [hp] at h
    cases h
  | close => rfl
  | lookupError => rfl
  | doneIdle hp =>
    rw [hp] at h
    cases h
  | doneOffer => rfl
  | ticker hp =>
    rw [hp] at h
    cases h
  | offered _ hr => cases hleft.symm.trans hr
  | sent _ hr => cases hleft.symm.trans hr
  | sentErr _ hr => cases hleft.symm.trans hr
  | handled => exact h
  | interrupt => exact h
  | stopTracing => exact h
  | stopPolling => exact h
  | timer => exact h
  | failHandle => exact h
  | failTimer => exact h
  | leave => exact h

/-- `Detach` has run, and the goroutine does not come back to a lookup. -/
structure Parked (d : Teardown) : Prop where
  left : d.poll.receiver = .left
  looping : d.poll.poller.looping = false
  going : d.panicked = false

theorem Parked.step {d d' : Teardown} {a : TeardownMove} (hstep : TeardownStep d a d')
    (h : Parked d) : Parked d' := by
  cases hstep with
  | poll hgoing _ hstep =>
    exact ⟨(received_of_left hstep h.left).1, looping_step hstep h.left h.looping, hgoing⟩
  | detach => exact ⟨h.left, h.looping, h.going⟩
  | panic _ _ hp =>
    have hlooping := h.looping
    rw [hp] at hlooping
    cases hlooping

theorem Parked.run {d d' : Teardown} {moves : List TeardownMove} (hrun : TeardownRun d moves d')
    (h : Parked d) : Parked d' := by
  induction hrun with
  | nil => exact h
  | cons hstep _ ih => exact ih (h.step hstep)

/-- `Detach` comes after the loop. -/
theorem left_of_detached {d d' : Teardown} {moves : List TeardownMove}
    (hrun : TeardownRun d moves d') (h : d.detached = true → d.poll.receiver = .left)
    (hobjs : d'.detached = true) : d'.poll.receiver = .left := by
  induction hrun with
  | nil => exact h hobjs
  | cons hstep _ ih =>
    apply ih _ hobjs
    intro hobjs'
    cases hstep with
    | poll _ _ hstep => exact (received_of_left hstep (h hobjs')).1
    | detach _ hleft => exact hleft
    | panic _ hobjs'' => exact h hobjs''

/-- A goroutine that comes back to a lookup can follow the `nil` pointer. -/
theorem exists_panic {d : Teardown} (hobjs : d.detached = true) (hgoing : d.panicked = false)
    (h : d.poll.poller.looping = true) :
    ∃ moves d', TeardownRun d moves d' ∧ d'.panicked = true := by
  have htop : ∀ d : Teardown, d.detached = true → d.panicked = false → ∀ draining,
      d.poll.poller = .top draining → ∃ moves d', TeardownRun d moves d' ∧ d'.panicked = true := by
    intro d hobjs hgoing draining hp
    have hne : d.detached = true → ∀ draining, d.poll.poller ≠ .lookup draining := by
      intro _ draining' hlookup
      cases hp.symm.trans hlookup
    exact ⟨_, _, .cons (.poll hgoing hne (.top hp)) (.cons (.panic hgoing hobjs rfl) (.nil _)), rfl⟩
  cases hp : d.poll.poller with
  | top draining => exact htop d hobjs hgoing draining hp
  | lookup draining => exact ⟨_, _, .cons (.panic hgoing hobjs hp) (.nil _), rfl⟩
  | idle =>
    have hne : d.detached = true → ∀ draining, d.poll.poller ≠ .lookup draining := by
      intro _ draining hlookup
      cases hp.symm.trans hlookup
    obtain ⟨moves, d', hrun, hpanic⟩ :=
      htop { d with poll := { d.poll with poller := .top false } } hobjs hgoing false rfl
    exact ⟨_, d', .cons (.poll hgoing hne (.ticker hp)) hrun, hpanic⟩
  | _ =>
    rw [hp] at h
    cases h

/-- In every run: without an error `Detach` comes after the channel is closed, and the goroutine
never follows the `nil` pointer; after `Detach` it still can exactly when it stands before a
lookup. -/
theorem poll_detached {moves : List TeardownMove} {d : Teardown} (hrun : TeardownRun {} moves d) :
    ((∀ a ∈ moves, a.Regular) →
      d.panicked = false ∧ (d.detached = true → d.poll.poller = .closed)) ∧
      (d.detached = true → d.panicked = false →
        ((∃ rest d', TeardownRun d rest d' ∧ d'.panicked = true) ↔
          d.poll.poller.looping = true)) := by
  refine ⟨fun hmoves => ?_, fun hobjs hgoing => ⟨?_, exists_panic hobjs hgoing⟩⟩
  · have hinit : Orderly {} := ⟨kept_init, nofun, rfl⟩
    have horderly := hinit.run hrun hmoves
    exact ⟨horderly.going, horderly.closed⟩
  · rintro ⟨rest, d', hrest, hpanic⟩
    have hleft := left_of_detached hrun nofun hobjs
    by_contra hlooping
    have hparked : Parked d := ⟨hleft, Bool.eq_false_iff.mpr hlooping, hgoing⟩
    rw [(hparked.run hrest).going] at hpanic
    cases hpanic

/-- A timer fails while the goroutine waits for the next tick. -/
theorem poll_detached_idle :
    let d : Teardown :=
      { poll := { poller := .idle, receiver := .left, cancelled := true }, detached := true }
    ∃ rest d', TeardownRun d rest d' ∧ d'.panicked = true := by
  intro d
  have hrun : TeardownRun {} [.poll .poll, .poll .poll, .poll .fail, .detach] d :=
    .cons (.poll rfl nofun (.top rfl)) <| .cons (.poll rfl nofun (.empty rfl rfl)) <|
      .cons (.poll rfl nofun (.failTimer rfl rfl)) <| .cons (.detach rfl rfl) <| .nil _
  exact ((poll_detached hrun).2 rfl rfl).mpr rfl

end Poll

end GoFtrace.Tracing
