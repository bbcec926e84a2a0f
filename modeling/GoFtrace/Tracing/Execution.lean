import GoFtrace.Tracing.Identify

/-!
# Executions

One goroutine as it calls functions, traced or not, and returns from them. A traced call
hits the probe at the entry of its function, and its return the one at a RET instruction.
When the stack moves in the prologue of a call, all frames are relocated and the prologue,
with the entry probe, starts again.

* `Goroutine`, `Step`: the open calls and what becomes of them.
* `Execution.run`: the probe programs along the steps, with the events that they attempt.
-/

namespace GoFtrace.Tracing

open Bpf (GoidKey)

/-! ## Calls -/

/-- An open call. -/
structure Activation where
  /-- Calls are numbered in the order in which they are made. -/
  id : Nat
  /-- The function, when it is traced. -/
  fn : Option TracedFunc
  /-- The frame pointer. -/
  bp : UInt64

/-- The call, once the stack has moved. -/
def Activation.move (shift : UInt64 → UInt64) (a : Activation) : Activation :=
  { a with bp := shift a.bp }

/-- The frame pointer of the innermost of some calls; it is 0 below the outermost. -/
def frameOf : List Activation → UInt64
  | [] => 0
  | a :: _ => a.bp

structure Goroutine where
  /-- The open calls, the innermost first. -/
  calls : List Activation := []
  /-- The number of the next call. -/
  next : Nat := 0
  /-- Whether the innermost call is still in its prologue. -/
  entering : Bool := false
  /-- The entry and the frame of the last probe hit, unless that was a return. -/
  lastEntry : Option (UInt64 × UInt64) := none

/-- What happens in a goroutine or beside it. A `Bpf.Hit` is what a probe finds there,
apart from the goroutine, the address and the frames. -/
inductive Step where
  /-- A step of the kernel side that does not concern the goroutine. -/
  | other (a : Bpf.Action)
  /-- The innermost call makes another one. -/
  | call (fn : Option TracedFunc) (bp : UInt64) (h : Bpf.Hit)
  /-- The stack moves in the prologue of the innermost call. -/
  | grow (shift : UInt64 → UInt64) (h : Bpf.Hit)
  /-- The innermost call returns, by the RET at an offset if it is traced. -/
  | ret (off : UInt64) (h : Bpf.Hit)

namespace Goroutine

/-- The innermost call is entered: that of a traced function hits a probe. -/
def enter (g : Goroutine) : Goroutine :=
  match g.calls.head? with
  | some { fn := some f, bp := bp, .. } =>
    { g with entering := true, lastEntry := some (f.entry, bp) }
  | _ => { g with entering := true }

/-- The innermost call is left. -/
def leave (g : Goroutine) : Goroutine :=
  match g.calls with
  | { fn := some _, .. } :: calls =>
    { g with calls := calls, entering := false, lastEntry := none }
  | calls => { g with calls := calls.tail, entering := false }

def step (g : Goroutine) : Step → Goroutine
  | .other _ => g
  | .call fn bp _ =>
    enter { g with calls := { id := g.next, fn := fn, bp := bp } :: g.calls, next := g.next + 1 }
  | .grow shift _ => enter { g with calls := g.calls.map (Activation.move shift) }
  | .ret _ _ => g.leave

end Goroutine

/-! ## Hits -/

/-- A hit of the entry probe at `ip`: the frame pointer is pushed after it, at `sp - 8`. -/
def entryHit (h : Bpf.Hit) (k : GoidKey) (ip bp callerBp : UInt64) : Bpf.Hit :=
  { h with
    goid := k.goid
    pid := k.pid
    regs :=
      { ip := ip
        reg := fun r => if r = .sp then bp + 8 else if r = .bp then callerBp else h.regs.reg r } }

/-- A hit of a return probe. -/
def retHit (h : Bpf.Hit) (k : GoidKey) (ip : UInt64) : Bpf.Hit :=
  { h with goid := k.goid, pid := k.pid, regs := { h.regs with ip := ip } }

namespace Goroutine

/-- The hit of the innermost call as it is entered, and its number. -/
def entryAction (g : Goroutine) (k : GoidKey) (h : Bpf.Hit) : Option (Nat × Bpf.Action) :=
  match g.calls with
  | [] => none
  | a :: calls => a.fn.map fun f => (a.id, .ent (entryHit h k f.entry a.bp (frameOf calls)))

/-- The hit of the innermost call as it returns, and its number. -/
def retAction (g : Goroutine) (k : GoidKey) (off : UInt64) (h : Bpf.Hit) :
    Option (Nat × Bpf.Action) :=
  match g.calls with
  | [] => none
  | a :: _ => a.fn.map fun f => (a.id, .ret (retHit h k (f.entry + off)))

/-- The hit of a step in the goroutine `k`, and the number of the call that it belongs to. -/
def action (g : Goroutine) (k : GoidKey) : Step → Option (Nat × Bpf.Action)
  | .other _ => none
  | .call fn bp h => (g.step (.call fn bp h)).entryAction k h
  | .grow shift h => (g.step (.grow shift h)).entryAction k h
  | .ret off h => g.retAction k off h

end Goroutine

/-! ## Runs -/

/-- An event handed to `push_event`, with the number of its call. -/
structure CallEvent where
  id : Nat
  event : Bpf.Event
  /-- Whether the queue took the event. -/
  pushed : Bool

/-- A goroutine, the kernel, and the events attempted for the goroutine so far. -/
structure Execution where
  goroutine : Goroutine := {}
  kernel : Bpf.Maps := {}
  log : List CallEvent := []

namespace Execution

/-- The events of `k` among those attempted by the hit of call `id`. -/
def attempted (k : GoidKey) (id : Nat) (pushed : Bool) (e : Option Bpf.Event) :
    List CallEvent :=
  ((e.filter fun e => e.key = k).map fun e => { id := id, event := e, pushed := pushed }).toList

def step (bcfg : Bpf.Config) (k : GoidKey) (s : Execution) (x : Step) : Execution :=
  match x with
  | .other a => { s with kernel := (Bpf.step bcfg s.kernel a).1 }
  | x =>
    match s.goroutine.action k x with
    | none => { s with goroutine := s.goroutine.step x }
    | some (id, a) =>
      { goroutine := s.goroutine.step x
        kernel := (Bpf.step bcfg s.kernel a).1
        log := s.log ++ attempted k id a.pushOk (Bpf.step bcfg s.kernel a).2 }

def run (bcfg : Bpf.Config) (k : GoidKey) (s : Execution) (steps : List Step) : Execution :=
  steps.foldl (step bcfg k) s

/-- Every step of a run meets a condition on the state before it. -/
def Along (bcfg : Bpf.Config) (k : GoidKey) (P : Execution → Step → Prop) :
    Execution → List Step → Prop
  | _, [] => True
  | s, x :: steps => P s x ∧ Along bcfg k P (s.step bcfg k x) steps

/-- A step in the goroutine that hits no probe. -/
theorem step_silent {bcfg : Bpf.Config} {k : GoidKey} {s : Execution} {x : Step}
    (hx : ∀ a, x ≠ .other a) (h : s.goroutine.action k x = none) :
    s.step bcfg k x = { s with goroutine := s.goroutine.step x } := by
  unfold step
  split
  · exact absurd rfl (hx _)
  · rw [h]

theorem step_hit {bcfg : Bpf.Config} {k : GoidKey} {s : Execution} {x : Step} {id : Nat}
    {a : Bpf.Action} (h : s.goroutine.action k x = some (id, a)) :
    s.step bcfg k x =
      { goroutine := s.goroutine.step x
        kernel := (Bpf.step bcfg s.kernel a).1
        log := s.log ++ attempted k id a.pushOk (Bpf.step bcfg s.kernel a).2 } := by
  unfold step
  split
  · cases h
  · rw [h]

theorem step_goroutine (bcfg : Bpf.Config) (k : GoidKey) (s : Execution) (x : Step) :
    (s.step bcfg k x).goroutine = s.goroutine.step x := by
  unfold step
  split
  · rfl
  · split <;> rfl

theorem of_mem_attempted {k : GoidKey} {id : Nat} {pushed : Bool} {e : Option Bpf.Event}
    {t : CallEvent} (h : t ∈ attempted k id pushed e) :
    t.id = id ∧ t.event.key = k ∧ t.pushed = pushed := by
  obtain ⟨event, hevent, rfl⟩ := Option.map_eq_some_iff.mp (Option.mem_toList.mp h)
  exact ⟨rfl, of_decide_eq_true (Option.filter_eq_some_iff.mp hevent).2, rfl⟩

/-- The events of a step are those of its hit. -/
theorem mem_step_log {bcfg : Bpf.Config} {k : GoidKey} {s : Execution} {x : Step}
    {t : CallEvent} (h : t ∈ (s.step bcfg k x).log) :
    t ∈ s.log ∨ t.event.key = k ∧ ∃ a, s.goroutine.action k x = some (t.id, a) ∧
      t.pushed = a.pushOk := by
  unfold step at h
  split at h
  · exact .inl h
  · split at h
    · exact .inl h
    · rename_i id a haction
      rcases List.mem_append.mp h with h | h
      · exact .inl h
      · obtain ⟨rfl, hkey, hpushed⟩ := of_mem_attempted h
        exact .inr ⟨hkey, a, haction, hpushed⟩

/-- What the steps of a run preserve, when each meets its condition. -/
theorem run_induction {bcfg : Bpf.Config} {k : GoidKey} {P : Execution → Step → Prop}
    {Inv : Execution → Prop} (hstep : ∀ s x, Inv s → P s x → Inv (s.step bcfg k x))
    (steps : List Step) {s : Execution} (hs : Inv s) (h : Along bcfg k P s steps) :
    Inv (s.run bcfg k steps) := by
  induction steps generalizing s with
  | nil => exact hs
  | cons x steps ih => exact ih (hstep s x hs h.1) h.2

end Execution

/-! ## Real steps -/

/-- The goroutines there are: every open call has a number and a frame of its own. -/
structure Goroutine.WellFormed (fns : List TracedFunc) (g : Goroutine) : Prop where
  ids : g.calls.Pairwise fun a b => b.id < a.id
  below : ∀ a ∈ g.calls, a.id < g.next
  frames : g.calls.Pairwise fun a b => a.bp ≠ b.bp
  frame_ne : ∀ a ∈ g.calls, a.bp ≠ 0
  probed : ∀ a ∈ g.calls, ∀ f ∈ a.fn, f ∈ probed fns
  /-- In its prologue a traced call is the last that hit a probe. -/
  entering : g.entering = true →
    ∃ a calls, g.calls = a :: calls ∧ ∀ f ∈ a.fn, g.lastEntry = some (f.entry, a.bp)

/-- A goroutine that has hit no probe. -/
structure Goroutine.Fresh (fns : List TracedFunc) (g : Goroutine) : Prop
    extends g.WellFormed fns where
  lastEntry : g.lastEntry = none

/-- The steps there are. A call gets a frame of its own, and the stack moves to a place
where no frame was, in a prologue. -/
def Step.Valid (fns : List TracedFunc) (k : GoidKey) (g : Goroutine) : Step → Prop
  | .other a => a.goroutine ≠ some k
  | .call fn bp _ => (∀ f ∈ fn, f ∈ probed fns) ∧ bp ≠ 0 ∧ ∀ a ∈ g.calls, bp ≠ a.bp
  | .grow shift _ =>
    g.entering = true ∧ (∀ a ∈ g.calls, shift a.bp ≠ 0) ∧
      (∀ a ∈ g.calls, ∀ b ∈ g.calls, shift a.bp ≠ b.bp) ∧
      ∀ a ∈ g.calls, ∀ b ∈ g.calls, shift a.bp = shift b.bp → a.bp = b.bp
  | .ret off _ => ∃ a calls, g.calls = a :: calls ∧ ∀ f ∈ a.fn, off ∈ f.rets

/-! ## Well-formed goroutines -/

namespace Goroutine

variable {fns : List TracedFunc} {k : GoidKey} {g : Goroutine}

@[simp] theorem enter_calls (g : Goroutine) : g.enter.calls = g.calls := by
  unfold enter
  split <;> rfl

@[simp] theorem enter_next (g : Goroutine) : g.enter.next = g.next := by
  unfold enter
  split <;> rfl

@[simp] theorem leave_calls (g : Goroutine) : g.leave.calls = g.calls.tail := by
  unfold leave
  split
  · rename_i h
    rw [h]
    rfl
  · rfl

@[simp] theorem leave_next (g : Goroutine) : g.leave.next = g.next := by
  unfold leave
  split <;> rfl

@[simp] theorem leave_entering (g : Goroutine) : g.leave.entering = false := by
  unfold leave
  split <;> rfl

theorem enter_lastEntry {a : Activation} {calls : List Activation} {f : TracedFunc}
    (hcalls : g.calls = a :: calls) (hf : a.fn = some f) :
    g.enter.lastEntry = some (f.entry, a.bp) := by
  obtain ⟨id, fn, bp⟩ := a
  obtain rfl : fn = some f := hf
  rw [enter, hcalls]
  rfl

theorem enter_lastEntry_none {a : Activation} {calls : List Activation}
    (hcalls : g.calls = a :: calls) (hf : a.fn = none) : g.enter.lastEntry = g.lastEntry := by
  obtain ⟨id, fn, bp⟩ := a
  obtain rfl : fn = none := hf
  rw [enter, hcalls]
  rfl

theorem leave_lastEntry {a : Activation} {calls : List Activation} {f : TracedFunc}
    (hcalls : g.calls = a :: calls) (hf : a.fn = some f) : g.leave.lastEntry = none := by
  obtain ⟨id, fn, bp⟩ := a
  obtain rfl : fn = some f := hf
  rw [leave, hcalls]

theorem leave_lastEntry_none {a : Activation} {calls : List Activation}
    (hcalls : g.calls = a :: calls) (hf : a.fn = none) : g.leave.lastEntry = g.lastEntry := by
  obtain ⟨id, fn, bp⟩ := a
  obtain rfl : fn = none := hf
  rw [leave, hcalls]

theorem enter_entering {a : Activation} {calls : List Activation}
    (hcalls : g.calls = a :: calls) :
    ∃ a calls, g.enter.calls = a :: calls ∧
      ∀ f ∈ a.fn, g.enter.lastEntry = some (f.entry, a.bp) :=
  ⟨a, calls, (enter_calls g).trans hcalls, fun _ hf => enter_lastEntry hcalls hf⟩

theorem moved_calls {a : Activation} {calls : List Activation} (hcalls : g.calls = a :: calls)
    (shift : UInt64 → UInt64) : g.calls.map (Activation.move shift) =
      a.move shift :: calls.map (Activation.move shift) := by
  rw [hcalls]
  rfl

theorem action_call (k : GoidKey) (g : Goroutine) (fn : Option TracedFunc) (bp : UInt64)
    (h : Bpf.Hit) :
    g.action k (.call fn bp h) =
      fn.map fun f => (g.next, .ent (entryHit h k f.entry bp (frameOf g.calls))) := by
  rw [action, entryAction, step, enter_calls]

theorem action_grow {k : GoidKey} {a : Activation} {calls : List Activation}
    (hcalls : g.calls = a :: calls) (shift : UInt64 → UInt64) (h : Bpf.Hit) :
    g.action k (.grow shift h) = a.fn.map fun f => (a.id, .ent (entryHit h k f.entry (shift a.bp)
      (frameOf (calls.map (Activation.move shift))))) := by
  rw [action, entryAction, step, enter_calls, hcalls]
  rfl

theorem action_ret {k : GoidKey} {a : Activation} {calls : List Activation}
    (hcalls : g.calls = a :: calls) (off : UInt64) (h : Bpf.Hit) :
    g.action k (.ret off h) = a.fn.map fun f => (a.id, .ret (retHit h k (f.entry + off))) := by
  rw [action, retAction, hcalls]

/-- Well-formed goroutines stay well-formed. -/
theorem WellFormed.step (h : g.WellFormed fns) {x : Step} (hx : x.Valid fns k g) :
    (g.step x).WellFormed fns := by
  cases x with
  | other a => exact h
  | call fn bp hit =>
    obtain ⟨hfn, hbp, hfresh⟩ := hx
    refine ⟨?_, ?_, ?_, ?_, ?_, fun _ => enter_entering rfl⟩
    · exact (enter_calls _).symm ▸ List.pairwise_cons.mpr ⟨h.below, h.ids⟩
    · simp only [Goroutine.step, enter_calls, enter_next, List.forall_mem_cons]
      exact ⟨Nat.lt_succ_self _, fun a ha => Nat.lt_succ_of_lt (h.below a ha)⟩
    · exact (enter_calls _).symm ▸ List.pairwise_cons.mpr ⟨hfresh, h.frames⟩
    · simp only [Goroutine.step, enter_calls, List.forall_mem_cons]
      exact ⟨hbp, h.frame_ne⟩
    · simp only [Goroutine.step, enter_calls, List.forall_mem_cons]
      exact ⟨hfn, h.probed⟩
  | grow shift hit =>
    obtain ⟨hent, hne, hnew, hinj⟩ := hx
    obtain ⟨a, calls, hcalls, -⟩ := h.entering hent
    refine ⟨?_, ?_, ?_, ?_, ?_, fun _ => enter_entering (moved_calls hcalls shift)⟩
    · simp only [Goroutine.step, enter_calls, List.pairwise_map]
      exact h.ids
    · simp only [Goroutine.step, enter_calls, enter_next, List.forall_mem_map]
      exact h.below
    · simp only [Goroutine.step, enter_calls, List.pairwise_map]
      exact h.frames.imp_of_mem fun ha hb hab heq => hab (hinj _ ha _ hb heq)
    · simp only [Goroutine.step, enter_calls, List.forall_mem_map]
      exact hne
    · simp only [Goroutine.step, enter_calls, List.forall_mem_map]
      exact h.probed
  | ret off hit =>
    have htail : ∀ a ∈ g.calls.tail, a ∈ g.calls := fun a => List.mem_of_mem_tail
    refine ⟨?_, ?_, ?_, ?_, ?_, ?_⟩
    · exact (leave_calls g).symm ▸ h.ids.tail
    · simp only [Goroutine.step, leave_calls, leave_next]
      exact fun a ha => h.below a (htail a ha)
    · exact (leave_calls g).symm ▸ h.frames.tail
    · simp only [Goroutine.step, leave_calls]
      exact fun a ha => h.frame_ne a (htail a ha)
    · simp only [Goroutine.step, leave_calls]
      exact fun a ha => h.probed a (htail a ha)
    · intro hent
      rw [show (g.step (.ret off hit)).entering = false from leave_entering g] at hent
      cases hent

end Goroutine

/-! ## What a hit does -/

/-- An entry event with the given addresses and flags. -/
structure IsEntry (e : Bpf.Event) (ip bp callerBp : UInt64) (flags : UInt8) : Prop where
  location : e.location = Bpf.entPoint
  ip : e.ip = ip
  bp : e.bp = bp
  callerBp : e.callerBp = callerBp
  traceFlags : e.traceFlags = flags

/-- A return event with the given address and flags; it carries no frames. -/
structure IsReturn (e : Bpf.Event) (ip : UInt64) (flags : UInt8) : Prop where
  location : e.location = Bpf.retPoint
  ip : e.ip = ip
  bp : e.bp = 0
  callerBp : e.callerBp = 0
  traceFlags : e.traceFlags = flags

/-- `TRACE_START`, with adaptive sampling. -/
def startFlag (bcfg : Bpf.Config) : UInt8 := if bcfg.adaptiveSampling then Bpf.traceStart else 0

/-- What an entry probe does to the trace state of its goroutine, and its event. -/
inductive EntryEffect (bcfg : Bpf.Config) (ip bp callerBp : UInt64) :
    Option Bpf.TraceState → Option Bpf.TraceState → Option Bpf.Event → Prop
  | silent : EntryEffect bcfg ip bp callerBp none none none
  | start {d : UInt32} {e : Bpf.Event} (he : IsEntry e ip bp callerBp (startFlag bcfg))
      (hwanted : bcfg.shouldTraceRip ip = true) :
      EntryEffect bcfg ip bp callerBp none (some (.initial e d)) (some e)
  | entry {st : Bpf.TraceState} {e : Bpf.Event} (ho : st.overrun bcfg = false)
      (he : IsEntry e ip bp callerBp 0) :
      EntryEffect bcfg ip bp callerBp (some st) (some (st.entered bcfg e)) (some e)
  | abort {st : Bpf.TraceState} {e : Bpf.Event} (ho : st.overrun bcfg = true)
      (he : IsEntry e ip bp callerBp Bpf.traceAbort) :
      EntryEffect bcfg ip bp callerBp (some st) none (some e)

/-- What a return probe does to the trace state of its goroutine, and its event. -/
inductive ReturnEffect (bcfg : Bpf.Config) (ip : UInt64) :
    Option Bpf.TraceState → Option Bpf.TraceState → Option Bpf.Event → Prop
  | silent : ReturnEffect bcfg ip none none none
  | ret {st : Bpf.TraceState} {e : Bpf.Event} (ho : st.overrun bcfg = false)
      (hends : st.ends bcfg ip = false) (he : IsReturn e ip 0) :
      ReturnEffect bcfg ip (some st) (some (st.returned bcfg ip)) (some e)
  | ended {st : Bpf.TraceState} {e : Bpf.Event} (hends : st.ends bcfg ip = true)
      (he : IsReturn e ip Bpf.traceEnd) : ReturnEffect bcfg ip (some st) none (some e)
  | abort {st : Bpf.TraceState} {e : Bpf.Event} (ho : st.overrun bcfg = true)
      (he : IsReturn e ip Bpf.traceAbort) : ReturnEffect bcfg ip (some st) none (some e)

theorem ReturnEffect.location {bcfg : Bpf.Config} {ip : UInt64} {st st' : Option Bpf.TraceState}
    {e : Bpf.Event} (h : ReturnEffect bcfg ip st st' (some e)) : e.location = Bpf.retPoint := by
  cases h with
  | ret _ _ he => exact he.location
  | ended _ he => exact he.location
  | abort _ he => exact he.location

theorem entryHit_key (h : Bpf.Hit) (k : GoidKey) (ip bp callerBp : UInt64) :
    (entryHit h k ip bp callerBp).key = k := rfl

theorem retHit_key (h : Bpf.Hit) (k : GoidKey) (ip : UInt64) : (retHit h k ip).key = k := rfl

theorem pushOk_entryHit (h : Bpf.Hit) (k : GoidKey) (ip bp callerBp : UInt64) :
    (Bpf.Action.ent (entryHit h k ip bp callerBp)).pushOk = h.pushOk := rfl

theorem pushOk_retHit (h : Bpf.Hit) (k : GoidKey) (ip : UInt64) :
    (Bpf.Action.ret (retHit h k ip)).pushOk = h.pushOk := rfl

/-- The leaves of an event are all that it adds to a bare one. -/
theorem isEntry_of_bare {e e' : Bpf.Event} {ip bp callerBp : UInt64} {flags : UInt8}
    (hb : e.bare = e') (h : IsEntry e' ip bp callerBp flags) : IsEntry e ip bp callerBp flags := by
  subst hb
  exact ⟨h.location, h.ip, h.bp, h.callerBp, h.traceFlags⟩

theorem isReturn_of_bare {e e' : Bpf.Event} {ip : UInt64} {flags : UInt8}
    (hb : e.bare = e') (h : IsReturn e' ip flags) : IsReturn e ip flags := by
  subst hb
  exact ⟨h.location, h.ip, h.bp, h.callerBp, h.traceFlags⟩

theorem entryEvent_isEntry (h : Bpf.Hit) (k : GoidKey) (ip bp callerBp : UInt64) :
    IsEntry (entryHit h k ip bp callerBp).entryEvent ip bp callerBp 0 where
  location := rfl
  ip := rfl
  bp := by
    change bp + 8 - 8 = bp
    exact add_sub_cancel_right bp 8
  callerBp := rfl
  traceFlags := rfl

theorem entered_congr {bcfg : Bpf.Config} (st : Bpf.TraceState) {e e' : Bpf.Event}
    {ip bp callerBp : UInt64} {flags flags' : UInt8} (h : IsEntry e ip bp callerBp flags)
    (h' : IsEntry e' ip bp callerBp flags') : st.entered bcfg e = st.entered bcfg e' := by
  simp only [Bpf.TraceState.entered, h.ip, h'.ip, h.bp, h'.bp, h.callerBp, h'.callerBp]

theorem initial_congr (d : UInt32) {e e' : Bpf.Event} {ip bp callerBp : UInt64}
    {flags flags' : UInt8} (h : IsEntry e ip bp callerBp flags)
    (h' : IsEntry e' ip bp callerBp flags') :
    Bpf.TraceState.initial e d = Bpf.TraceState.initial e' d := by
  simp only [Bpf.TraceState.initial, h.ip, h'.ip, h.bp, h'.bp]

theorem entry_effect (bcfg : Bpf.Config) (m : Bpf.Maps) (h : Bpf.Hit) (k : GoidKey)
    (ip bp callerBp : UInt64) :
    EntryEffect bcfg ip bp callerBp (m.shouldTraceGoid k)
      ((Bpf.step bcfg m (.ent (entryHit h k ip bp callerBp))).1.shouldTraceGoid k)
      ((Bpf.step bcfg m (.ent (entryHit h k ip bp callerBp))).2.filter fun e => e.key = k) := by
  have hstate := Bpf.step_state bcfg m k (.ent (entryHit h k ip bp callerBp))
  have hevent := Bpf.step_event bcfg m k (.ent (entryHit h k ip bp callerBp))
  have hev := entryEvent_isEntry h k ip bp callerBp
  generalize Bpf.step bcfg m (.ent (entryHit h k ip bp callerBp)) = r at hstate hevent ⊢
  rw [Bpf.stepLocal, if_pos (entryHit_key h k ip bp callerBp)] at hstate hevent
  rw [hstate]
  generalize r.2.filter (fun e => e.key = k) = attempt at hevent ⊢
  generalize m.shouldTraceGoid k = state at hevent ⊢
  cases state with
  | none =>
    unfold Bpf.entLocal at hevent ⊢
    dsimp only at hevent ⊢
    by_cases hadmit : Bpf.admits bcfg m.currentSampleDenominator (entryHit h k ip bp callerBp)
    · rw [if_pos hadmit] at hevent ⊢
      obtain ⟨e, rfl, he⟩ := Option.map_eq_some_iff.mp hevent
      have hwanted : bcfg.shouldTraceRip ip = true := by
        simp only [Bpf.admits, Bool.and_eq_true] at hadmit
        exact hadmit.1.1
      have hentry : IsEntry e ip bp callerBp (startFlag bcfg) :=
        isEntry_of_bare he ⟨rfl, rfl, hev.bp, rfl, rfl⟩
      rw [initial_congr _ hev hentry]
      exact .start hentry hwanted
    · rw [if_neg hadmit] at hevent ⊢
      rw [Option.map_eq_none_iff.mp hevent]
      exact .silent
  | some st =>
    obtain ⟨e, rfl, he⟩ := Option.map_eq_some_iff.mp hevent
    cases ho : st.overrun bcfg with
    | true =>
      have hentry : IsEntry e ip bp callerBp Bpf.traceAbort :=
        isEntry_of_bare he ⟨rfl, rfl, hev.bp, rfl, Bpf.TraceState.abortFlag_of_overrun ho⟩
      rw [Bpf.entLocal, if_pos ho]
      exact .abort ho hentry
    | false =>
      have hentry : IsEntry e ip bp callerBp 0 :=
        isEntry_of_bare he ⟨rfl, rfl, hev.bp, rfl, Bpf.TraceState.abortFlag_of_overrun ho⟩
      rw [Bpf.entLocal, if_neg (by rw [ho]; exact Bool.false_ne_true),
        entered_congr st hev hentry]
      exact .entry ho hentry

theorem return_effect (bcfg : Bpf.Config) (m : Bpf.Maps) (h : Bpf.Hit) (k : GoidKey)
    (ip : UInt64) :
    ReturnEffect bcfg ip (m.shouldTraceGoid k)
      ((Bpf.step bcfg m (.ret (retHit h k ip))).1.shouldTraceGoid k)
      ((Bpf.step bcfg m (.ret (retHit h k ip))).2.filter fun e => e.key = k) := by
  have hstate := Bpf.step_state bcfg m k (.ret (retHit h k ip))
  have hevent := Bpf.step_event bcfg m k (.ret (retHit h k ip))
  generalize Bpf.step bcfg m (.ret (retHit h k ip)) = r at hstate hevent ⊢
  rw [Bpf.stepLocal, if_pos (retHit_key h k ip)] at hstate hevent
  rw [hstate]
  generalize r.2.filter (fun e => e.key = k) = attempt at hevent ⊢
  generalize m.shouldTraceGoid k = state at hevent ⊢
  cases state with
  | none =>
    rw [Option.map_eq_none_iff.mp hevent]
    exact .silent
  | some st =>
    obtain ⟨e, rfl, he⟩ := Option.map_eq_some_iff.mp hevent
    rw [Bpf.retLocal]
    dsimp only
    have hreturn : ∀ flags, (st.retEvent bcfg (retHit h k ip)).traceFlags = flags →
        IsReturn e ip flags := fun flags hflags => isReturn_of_bare he ⟨rfl, rfl, rfl, rfl, hflags⟩
    have hflags : (st.retEvent bcfg (retHit h k ip)).traceFlags =
        if st.ends bcfg ip then Bpf.traceEnd else st.abortFlag bcfg := rfl
    have hip : (retHit h k ip).regs.ip = ip := rfl
    rw [hip]
    cases hends : st.ends bcfg ip with
    | true =>
      rw [hends, if_pos rfl] at hflags
      exact .ended hends (hreturn _ hflags)
    | false =>
      rw [hends, if_neg Bool.false_ne_true] at hflags
      cases ho : st.overrun bcfg with
      | true => exact .abort ho (hreturn _ (hflags.trans (Bpf.TraceState.abortFlag_of_overrun ho)))
      | false =>
        exact .ret ho hends (hreturn _ (hflags.trans (Bpf.TraceState.abortFlag_of_overrun ho)))

end GoFtrace.Tracing
