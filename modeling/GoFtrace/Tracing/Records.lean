import GoFtrace.EventManager.Tally
import GoFtrace.Tracing.Execution

/-!
# The records of a sample

What the event manager retains of a sample whose events all arrive: one entry record for
each call that was entered, and the returns.

* `sampleOf`, `oneEach`: the events of the open sample, and the records they should leave.
* `Recording`: how an event of a goroutine continues its sample.
* `retains_delivered`: the manager keeps these records, unless its memory runs out.
-/

namespace GoFtrace.Tracing

open Bpf (GoidKey)
open EventManager (View hasFlag repeats)

/-! ## The open sample -/

def CallEvent.isEntry (t : CallEvent) : Bool := t.event.location == Bpf.entPoint

/-- The events of the open sample, after one more event. It ends when the call returns that
was the first of it, and when it is aborted. -/
def extendSample (sample : List CallEvent) (t : CallEvent) : List CallEvent :=
  if t.event.traceFlags = Bpf.traceAbort then []
  else if t.event.location = Bpf.retPoint then
    match sample with
    | [] => []
    | root :: _ => if root.id = t.id then [] else sample ++ [t]
  else sample ++ [t]

/-- The events of the sample that is open at the end of a log. -/
def sampleOf (log : List CallEvent) : List CallEvent := log.foldl extendSample []

/-- The latest entry event of each call, and the returns, in order. -/
def oneEach : List CallEvent → List Bpf.Event
  | [] => []
  | t :: ts =>
    if ts.any fun u => u.isEntry && u.id == t.id then oneEach ts else t.event :: oneEach ts

theorem sampleOf_append (log : List CallEvent) (t : CallEvent) :
    sampleOf (log ++ [t]) = extendSample (sampleOf log) t := by
  rw [sampleOf, List.foldl_append]
  rfl

theorem oneEach_cons (t : CallEvent) (ts : List CallEvent) :
    oneEach (t :: ts) =
      if ts.any fun u => u.isEntry && u.id == t.id then oneEach ts
      else t.event :: oneEach ts := rfl

/-- An event that enters no earlier call is added. -/
theorem oneEach_append {sample : List CallEvent} {t : CallEvent}
    (h : t.isEntry = true → ∀ u ∈ sample, u.id ≠ t.id) :
    oneEach (sample ++ [t]) = oneEach sample ++ [t.event] := by
  induction sample with
  | nil => rfl
  | cons u sample ih =>
    have hu : (t.isEntry && t.id == u.id) = false := by
      rw [Bool.and_eq_false_iff]
      cases ht : t.isEntry with
      | false => exact .inl rfl
      | true => exact .inr (beq_eq_false_iff_ne.mpr (Ne.symm (h ht u List.mem_cons_self)))
    rw [List.cons_append, oneEach_cons, oneEach_cons, List.any_append,
      ih fun ht v hv => h ht v (List.mem_cons_of_mem _ hv)]
    simp only [List.any_cons, List.any_nil, hu, Bool.or_false]
    split <;> rfl

/-- A call that is entered again has its entry replaced. -/
theorem oneEach_again (sample : List CallEvent) {last t : CallEvent} (hid : last.id = t.id)
    (hlast : last.isEntry = true) (ht : t.isEntry = true) :
    ∃ events, oneEach (sample ++ [last]) = events ++ [last.event] ∧
      oneEach (sample ++ [last] ++ [t]) = events ++ [t.event] := by
  induction sample with
  | nil =>
    refine ⟨[], rfl, ?_⟩
    simp [oneEach, hid, ht]
  | cons u sample ih =>
    obtain ⟨events, hone, htwo⟩ := ih
    have hany : (sample ++ [last] ++ [t]).any (fun w => w.isEntry && w.id == u.id) =
        (sample ++ [last]).any fun w => w.isEntry && w.id == u.id := by
      simp [hid, hlast, ht]
    rw [List.cons_append, List.cons_append, oneEach_cons, oneEach_cons, hany, hone, htwo]
    split
    · exact ⟨events, rfl, rfl⟩
    · exact ⟨u.event :: events, rfl, rfl⟩

/-- The last event is always among the records. -/
theorem oneEach_getLast? {sample : List CallEvent} {last : CallEvent}
    (h : sample.getLast? = some last) : (oneEach sample).getLast? = some last.event := by
  induction sample with
  | nil => cases h
  | cons t ts ih =>
    rw [oneEach_cons]
    cases ts with
    | nil =>
      cases h
      rfl
    | cons u us =>
      rw [List.getLast?_cons_cons] at h
      split
      · exact ih h
      · rw [List.getLast?_cons, ih h]
        rfl

/-! ## Recording -/

/-- How an event continues the sample of its goroutine: the events of the sample and its
open calls, the innermost first, before and after. -/
inductive Recording (cfg : EventManager.Config) (t : CallEvent) :
    List CallEvent → List (Nat × UInt64) → List CallEvent → List (Nat × UInt64) → Prop
  | first {p : GoFtrace.Uprobe} (hp : cfg.getUprobe t.event.ip = some p)
      (hloc : t.event.location = Bpf.entPoint)
      (hflags : t.event.traceFlags = if cfg.adaptive then Bpf.traceStart else 0) :
      Recording cfg t [] [] [t] [(t.id, t.event.ip)]
  | entry {p : GoFtrace.Uprobe} {sample : List CallEvent} {stack : List (Nat × UInt64)}
      {last : CallEvent} (hp : cfg.getUprobe t.event.ip = some p)
      (hloc : t.event.location = Bpf.entPoint) (hflags : t.event.traceFlags = 0)
      (hlast : sample.getLast? = some last) (hrep : repeats last.event t.event = false)
      (hfresh : ∀ u ∈ sample, u.id ≠ t.id) :
      Recording cfg t sample stack (sample ++ [t]) ((t.id, t.event.ip) :: stack)
  | again {p : GoFtrace.Uprobe} {sample : List CallEvent} {stack : List (Nat × UInt64)}
      {last : CallEvent} (hp : cfg.getUprobe t.event.ip = some p)
      (hloc : t.event.location = Bpf.entPoint) (hflags : t.event.traceFlags = 0)
      (hrep : repeats last.event t.event = true) (hid : last.id = t.id) (hne : stack ≠ []) :
      Recording cfg t (sample ++ [last]) stack (sample ++ [last] ++ [t]) stack
  | ret {p : GoFtrace.Uprobe} {sample : List CallEvent} {stack : List (Nat × UInt64)}
      {last : CallEvent} (hp : cfg.getUprobe t.event.ip = some p)
      (hloc : t.event.location = Bpf.retPoint) (hflags : t.event.traceFlags = 0)
      (hlast : sample.getLast? = some last) (hrep : repeats last.event t.event = false)
      (hne : stack ≠ []) :
      Recording cfg t sample ((t.id, p.address - p.relOffset) :: stack) (sample ++ [t]) stack
  | close {p : GoFtrace.Uprobe} {sample : List CallEvent} {last : CallEvent}
      (hp : cfg.getUprobe t.event.ip = some p)
      (hloc : t.event.location = Bpf.retPoint)
      (hflags : t.event.traceFlags = if cfg.adaptive then Bpf.traceEnd else 0)
      (hlast : sample.getLast? = some last) (hrep : repeats last.event t.event = false) :
      Recording cfg t sample [(t.id, p.address - p.relOffset)] [] []
  /-- The return of a call that was made before the goroutine was traced. -/
  | orphan (ha : cfg.adaptive = false) (hloc : t.event.location = Bpf.retPoint) :
      Recording cfg t [] [] [] []
  | abort {p : GoFtrace.Uprobe} {sample : List CallEvent} {stack : List (Nat × UInt64)}
      (ha : cfg.adaptive = true) (hp : cfg.getUprobe t.event.ip = some p)
      (hloc : t.event.location ≠ Bpf.goroutineExitPoint)
      (hflags : t.event.traceFlags = Bpf.traceAbort) : Recording cfg t sample stack [] []

/-- How a log was recorded, with the open sample and its open calls. -/
inductive Recorded (cfg : EventManager.Config) :
    List CallEvent → List CallEvent → List (Nat × UInt64) → Prop
  | nil : Recorded cfg [] [] []
  | snoc {log sample sample' : List CallEvent} {stack stack' : List (Nat × UInt64)}
      {t : CallEvent} (h : Recorded cfg log sample stack)
      (ht : Recording cfg t sample stack sample' stack') :
      Recorded cfg (log ++ [t]) sample' stack'

/-! ## Retaining -/

/-- The manager has the records of a sample, and its open calls. -/
structure Retains (sample : List CallEvent) (stack : List (Nat × UInt64)) (v : View) : Prop where
  events : v.events.map EventManager.Event.goftraceEvent = oneEach sample
  stack : v.stack = stack.map Prod.snd
  invalid : v.invalid = false
  suppressed : v.suppressed = false

theorem retains_empty : Retains [] [] {} := ⟨rfl, rfl, rfl, rfl⟩

section

variable {cfg : EventManager.Config} {full : Bool} {t : CallEvent} {argString : String}
  {v v' : View} {outcome : EventManager.Outcome} {sample sample' : List CallEvent}
  {stack stack' : List (Nat × UInt64)}

theorem hasFlag_zero {e : Bpf.Event} (h : e.traceFlags = 0) (flag : UInt8) :
    hasFlag e flag = false := by
  rw [hasFlag, h, UInt8.zero_and]
  rfl

theorem hasFlag_ite {e : Bpf.Event} {b : Bool} {f flag : UInt8} (hno : f &&& flag = 0)
    (h : e.traceFlags = if b then f else 0) : hasFlag e flag = false := by
  cases b with
  | true =>
    rw [hasFlag, h, if_pos rfl, hno]
    rfl
  | false => exact hasFlag_zero h flag

/-- An event that starts no sample changes nothing as it is admitted. -/
theorem Retains.admitted (h : Retains sample stack v) {e : Bpf.Event}
    (hstart : hasFlag e Bpf.traceStart = true → sample = []) : v.admitted cfg e = v := by
  have hreset : v.reset e = v := by
    unfold View.reset
    cases hflag : hasFlag e Bpf.traceStart with
    | false => rfl
    | true =>
      have hnil : v.events = [] := by
        have hevents := h.events
        rw [hstart hflag] at hevents
        exact List.map_eq_nil_iff.mp hevents
      rw [hnil]
      rfl
  unfold View.admitted
  rw [hreset]
  split
  · rw [← h.suppressed]
  · rfl

theorem Retains.events_ne (h : Retains sample stack v) {last : CallEvent}
    (hlast : sample.getLast? = some last) : v.events ≠ [] := by
  intro hnil
  have hone := oneEach_getLast? hlast
  rw [← h.events, hnil] at hone
  cases hone

/-- The last record is that of the last event. -/
theorem Retains.isDuplicate (h : Retains sample stack v) {last : CallEvent}
    (hlast : sample.getLast? = some last) {record : EventManager.Event}
    (hrecord : v.events.getLast? = some record) (e : Bpf.Event) :
    EventManager.isDuplicate record e = repeats last.event e := by
  have hone := oneEach_getLast? hlast
  rw [← h.events, List.getLast?_map, hrecord] at hone
  have heq : record.goftraceEvent = last.event := Option.some.inj hone
  rw [EventManager.isDuplicate, heq]
  rfl

/-- A stack that stays open. -/
theorem closes_of_open {e : Bpf.Event} (hend : hasFlag e Bpf.traceEnd = false)
    (hstack : v.stack ≠ []) : v.closes cfg e = false := by
  unfold View.closes
  cases hs : v.stack with
  | nil => exact absurd hs hstack
  | cons ip rest => simp [hend]

/-- A stack whose last call has returned. -/
theorem closes_of_ended {e : Bpf.Event}
    (hflags : e.traceFlags = if cfg.adaptive then Bpf.traceEnd else 0)
    (hstack : v.stack = []) (hevents : v.events ≠ []) : v.closes cfg e = true := by
  unfold View.closes
  cases ha : cfg.adaptive with
  | true =>
    rw [ha, if_pos rfl] at hflags
    have hend : hasFlag e Bpf.traceEnd = true := by rw [hasFlag, hflags]; decide
    simp [hend, hstack, hevents]
  | false => simp [hstack, hevents]

theorem append_stack_entry (cfg : EventManager.Config) (v : View) {record : EventManager.Event}
    (hloc : record.goftraceEvent.location = Bpf.entPoint) :
    (v.append cfg record).stack = record.goftraceEvent.ip :: v.stack ∧
      (v.append cfg record).invalid = v.invalid := by
  unfold View.append View.observe
  rw [if_pos hloc]
  exact ⟨rfl, rfl⟩

theorem append_stack_ret (cfg : EventManager.Config) {v : View} {record : EventManager.Event}
    {rest : List UInt64} (hloc : record.goftraceEvent.location = Bpf.retPoint)
    (hstack : v.stack = record.funcEntry :: rest) :
    (v.append cfg record).stack = rest ∧ (v.append cfg record).invalid = v.invalid := by
  have hne : record.goftraceEvent.location ≠ Bpf.entPoint := by
    rw [hloc]
    decide
  unfold View.append View.observe
  rw [if_neg hne, if_pos hloc]
  simp [EventManager.returnMismatch, hstack]

/-- The record of an event that meets the probe `p`. -/
def CallEvent.record (t : CallEvent) (p : GoFtrace.Uprobe) (argString : String) :
    EventManager.Event :=
  { goftraceEvent := t.event, uprobe := p, argString := argString }

/-- The sample of an event was dropped, as the memory budget is used up. -/
structure Rejected (cfg : EventManager.Config) (full : Bool) (t : CallEvent) (v : View) : Prop where
  adaptive : cfg.adaptive = true
  full : full = true
  location : t.event.location ≠ Bpf.goroutineExitPoint
  flags : hasFlag t.event Bpf.traceAbort = false
  lost : ∃ b, v = { suppressed := b }

/-- What becomes of an event that is neither an exit nor an abort, in a goroutine that is not
suppressed. -/
inductive Live (cfg : EventManager.Config) (full : Bool) (t : CallEvent) (p : GoFtrace.Uprobe)
    (argString : String) (v : View) : View → Prop
  | overBudget {w : View} (h : Rejected cfg full t w) : Live cfg full t p argString v w
  | unwanted (hempty : v.events = []) (hopen : View.opensStack cfg t.event = false) :
      Live cfg full t p argString v v
  | kept {w : View} (hret : View.Retained cfg (t.record p argString) v w)
      (hopen : w.closes cfg t.event = false) : Live cfg full t p argString v w
  | closed {w : View} (hret : View.Retained cfg (t.record p argString) v w)
      (hclose : w.closes cfg t.event = true) : Live cfg full t p argString v w.clear

/-- An event of an open sample that repeats no entry is added to the records. -/
theorem Retains.append (h : Retains sample stack v) {last : CallEvent} {p : GoFtrace.Uprobe}
    (hlast : sample.getLast? = some last) (hrep : repeats last.event t.event = false)
    (hfresh : t.isEntry = true → ∀ u ∈ sample, u.id ≠ t.id)
    (hlive : Live cfg full t p argString v v') :
    (∃ w, w = v.append cfg (t.record p argString) ∧
      w.events.map EventManager.Event.goftraceEvent = oneEach (sample ++ [t]) ∧
      w.suppressed = false ∧ v' = if w.closes cfg t.event then w.clear else w) ∨
    Rejected cfg full t v' := by
  have hw : ∀ w, View.Retained cfg (t.record p argString) v w →
      w = v.append cfg (t.record p argString) := by
    intro w hret
    cases hret with
    | append _ _ => rfl
    | replace hrecord hdup =>
      have hno := (h.isDuplicate hlast hrecord t.event).trans hrep
      exact absurd (hdup.symm.trans hno) (by decide)
  have hevents : (v.append cfg (t.record p argString)).events.map
      EventManager.Event.goftraceEvent = oneEach (sample ++ [t]) := by
    rw [EventManager.append_events, List.map_append, h.events, oneEach_append hfresh]
    rfl
  have hsup : (v.append cfg (t.record p argString)).suppressed = false := by
    rw [EventManager.append_suppressed, h.suppressed]
  cases hlive with
  | overBudget hrejected => exact .inr hrejected
  | unwanted hempty _ => exact absurd hempty (h.events_ne hlast)
  | kept hret hopen =>
    refine .inl ⟨_, rfl, hevents, hsup, ?_⟩
    rw [← hw _ hret, if_neg (by rw [hopen]; exact Bool.false_ne_true)]
  | closed hret hclose =>
    refine .inl ⟨_, rfl, hevents, hsup, ?_⟩
    rw [← hw _ hret, if_pos hclose]

/-- The first event of a sample is retained, and the stack stays open. -/
theorem Live.first {p : GoFtrace.Uprobe} (hlive : Live cfg full t p argString v v')
    (hv : v.events = [] ∧ v.stack = [] ∧ v.invalid = false ∧ v.suppressed = false)
    (hloc : t.event.location = Bpf.entPoint)
    (hflags : t.event.traceFlags = if cfg.adaptive then Bpf.traceStart else 0) :
    Retains [t] [(t.id, t.event.ip)] v' ∨
      Rejected cfg full t v' := by
  obtain ⟨hevents, hstack, hinvalid, hsup⟩ := hv
  have hopens : View.opensStack cfg t.event = true := by
    rw [View.opensStack, hloc]
    cases ha : cfg.adaptive with
    | false => rfl
    | true =>
      rw [ha, if_pos rfl] at hflags
      rw [hasFlag, hflags]
      decide
  have hretains : Retains [t] [(t.id, t.event.ip)] (v.append cfg (t.record p argString)) := by
    obtain ⟨hstack', hinvalid'⟩ := append_stack_entry cfg v
      (show (t.record p argString).goftraceEvent.location = Bpf.entPoint from hloc)
    refine ⟨?_, ?_, hinvalid'.trans hinvalid, ?_⟩
    · rw [EventManager.append_events, hevents, List.nil_append, List.map_singleton]
      rfl
    · rw [hstack', hstack]
      rfl
    · rw [EventManager.append_suppressed, hsup]
  have hw : ∀ w, View.Retained cfg (t.record p argString) v w →
      w = v.append cfg (t.record p argString) := by
    intro w hret
    cases hret with
    | append _ _ => rfl
    | replace hlast _ =>
      rw [hevents] at hlast
      cases hlast
  cases hlive with
  | overBudget hrejected => exact .inr hrejected
  | unwanted _ hopen =>
    rw [hopens] at hopen
    cases hopen
  | kept hret _ =>
    rw [hw _ hret]
    exact .inl hretains
  | closed hret hclose =>
    have hend : hasFlag t.event Bpf.traceEnd = false := hasFlag_ite (by decide) hflags
    have hopen : (v.append cfg (t.record p argString)).closes cfg t.event = false := by
      refine closes_of_open hend ?_
      rw [hretains.stack]
      exact List.cons_ne_nil _ _
    rw [hw _ hret, hopen] at hclose
    cases hclose

/-- An event that repeats the last entry of a sample takes the place of its record. -/
theorem Retains.again {last : CallEvent} {p : GoFtrace.Uprobe}
    (h : Retains (sample ++ [last]) stack v) (hloc : t.event.location = Bpf.entPoint)
    (hend : hasFlag t.event Bpf.traceEnd = false) (hrep : repeats last.event t.event = true)
    (hid : last.id = t.id) (hne : stack ≠ []) (hlive : Live cfg full t p argString v v') :
    Retains (sample ++ [last] ++ [t]) stack v' ∨ Rejected cfg full t v' := by
  have hlast : (sample ++ [last]).getLast? = some last := List.getLast?_concat
  have hentry : last.isEntry = true := by
    simp only [repeats, Bool.and_eq_true, beq_iff_eq] at hrep
    rw [CallEvent.isEntry, hrep.1.1, hloc]
    rfl
  have hagain : t.isEntry = true := by simp [CallEvent.isEntry, hloc]
  obtain ⟨events, hone, htwo⟩ := oneEach_again sample hid hentry hagain
  have hretains : ∀ {record : EventManager.Event}, Retains (sample ++ [last] ++ [t]) stack
      (v.replace record t.event) := by
    intro record
    refine ⟨?_, h.stack, h.invalid, h.suppressed⟩
    have hevents := h.events
    rw [hone] at hevents
    rw [htwo, View.replace]
    dsimp only
    rw [List.map_append, List.map_dropLast, hevents, List.dropLast_concat]
    rfl
  have hw : ∀ w, View.Retained cfg (t.record p argString) v w →
      ∃ record, w = v.replace record t.event := by
    intro w hret
    cases hret with
    | append _ hdup =>
      obtain ⟨record, hrecord⟩ := Option.isSome_iff_exists.mp
        (List.getLast?_isSome.mpr (h.events_ne hlast))
      have hyes := (h.isDuplicate hlast hrecord t.event).trans hrep
      exact absurd ((hdup record hrecord).symm.trans hyes) (by decide)
    | replace _ _ => exact ⟨_, rfl⟩
  cases hlive with
  | overBudget hrejected => exact .inr hrejected
  | unwanted hempty _ => exact absurd hempty (h.events_ne hlast)
  | kept hret _ =>
    obtain ⟨record, rfl⟩ := hw _ hret
    exact .inl hretains
  | closed hret hclose =>
    obtain ⟨record, rfl⟩ := hw _ hret
    have hopen : (v.replace record t.event).closes cfg t.event = false := by
      refine closes_of_open hend ?_
      rw [hretains.stack]
      exact fun hnil => hne (List.map_eq_nil_iff.mp hnil)
    rw [hopen] at hclose
    cases hclose

variable (full argString)

theorem handle_live {p : GoFtrace.Uprobe} (hv : v.suppressed = false)
    (hadmitted : v.admitted cfg t.event = v) (hp : cfg.getUprobe t.event.ip = some p)
    (hloc : t.event.location ≠ Bpf.goroutineExitPoint)
    (habort : hasFlag t.event Bpf.traceAbort = false) :
    Live cfg full t p argString v (v.handle cfg full t.event argString).1 := by
  have hstep := View.handle_cases cfg full t.event argString v
  generalize (v.handle cfg full t.event argString).1 = v' at hstep ⊢
  generalize (v.handle cfg full t.event argString).2 = outcome at hstep
  cases hstep with
  | exited h => exact absurd h hloc
  | aborted _ h =>
    rw [habort] at h
    cases h
  | suppressed _ h _ =>
    rw [hv] at h
    cases h
  | overBudget ha hfull => exact .overBudget ⟨ha, hfull, hloc, habort, _, rfl⟩
  | unresolved h =>
    rw [hp] at h
    cases h
  | unwanted hempty hopen =>
    rw [hadmitted] at hempty ⊢
    exact .unwanted hempty hopen
  | kept h hret hopen =>
    obtain rfl := Option.some.inj (hp.symm.trans h)
    rw [hadmitted] at hret
    exact .kept hret hopen
  | closed h hret hclose =>
    obtain rfl := Option.some.inj (hp.symm.trans h)
    rw [hadmitted] at hret
    exact .closed hret hclose

/-- An event of a sample is handled as one of a goroutine that is not suppressed. -/
theorem Retains.live (h : Retains sample stack v) {p : GoFtrace.Uprobe}
    (hp : cfg.getUprobe t.event.ip = some p) {loc : UInt8} (hloc : t.event.location = loc)
    (hne : loc ≠ Bpf.goroutineExitPoint)
    (hstart : hasFlag t.event Bpf.traceStart = true → sample = [])
    (habort : hasFlag t.event Bpf.traceAbort = false) :
    Live cfg full t p argString v (v.handle cfg full t.event argString).1 := by
  apply handle_live full argString h.suppressed (h.admitted hstart) hp
  · exact hloc ▸ hne
  · exact habort

/-- A return without records leaves the goroutine as it is. -/
theorem handle_orphan (hevents : v.events = []) (ha : cfg.adaptive = false)
    (hloc : t.event.location = Bpf.retPoint) :
    (v.handle cfg full t.event argString).1 = v := by
  have hne : t.event.location ≠ Bpf.entPoint := by
    rw [hloc]
    decide
  have hnexit : t.event.location ≠ Bpf.goroutineExitPoint := by
    rw [hloc]
    decide
  unfold View.handle View.add View.admission View.retain
  rw [if_neg hnexit, ha]
  cases cfg.getUprobe t.event.ip with
  | none => rfl
  | some p => simp [hevents, hne]

/-- An event of a sample is retained as it should be, or it meets the memory budget. -/
theorem Retains.handle (h : Retains sample stack v)
    (ht : Recording cfg t sample stack sample' stack') :
    Retains sample' stack' (v.handle cfg full t.event argString).1 ∨
      Rejected cfg full t (v.handle cfg full t.event argString).1 := by
  have hquiet : t.event.traceFlags = 0 →
      hasFlag t.event Bpf.traceStart = true → sample = [] := by
    intro hflags hs
    rw [hasFlag_zero hflags] at hs
    cases hs
  cases ht with
  | first hp hloc hflags =>
    have hlive := h.live full argString hp hloc (by decide) (fun _ => rfl)
      (hasFlag_ite (by decide) hflags)
    exact hlive.first ⟨List.map_eq_nil_iff.mp h.events, h.stack, h.invalid, h.suppressed⟩ hloc
      hflags
  | @entry p _ _ last hp hloc hflags hlast hrep hfresh =>
    have hno := hasFlag_zero hflags
    have hlive := h.live full argString hp hloc (by decide) (hquiet hflags) (hno _)
    refine (h.append hlast hrep (fun _ => hfresh) hlive).imp_left ?_
    rintro ⟨w, rfl, hevents, hsup, hv'⟩
    obtain ⟨hstack, hinvalid⟩ := append_stack_entry cfg v
      (show (t.record p argString).goftraceEvent.location = Bpf.entPoint from hloc)
    rw [closes_of_open (hno _) (by rw [hstack]; exact List.cons_ne_nil _ _),
      if_neg Bool.false_ne_true] at hv'
    rw [hv']
    refine ⟨hevents, ?_, hinvalid.trans h.invalid, hsup⟩
    rw [hstack, h.stack]
    rfl
  | again hp hloc hflags hrep hid hne =>
    have hno := hasFlag_zero hflags
    have hlive := h.live full argString hp hloc (by decide) (hquiet hflags) (hno _)
    exact h.again hloc (hno _) hrep hid hne hlive
  | @ret p _ stack last hp hloc hflags hlast hrep hne =>
    have hno := hasFlag_zero hflags
    have hlive := h.live full argString hp hloc (by decide) (hquiet hflags) (hno _)
    have hreturn : t.isEntry = true → ∀ u ∈ sample, u.id ≠ t.id := by
      simp [CallEvent.isEntry, hloc, Bpf.retPoint, Bpf.entPoint]
    refine (h.append hlast hrep hreturn hlive).imp_left ?_
    rintro ⟨w, rfl, hevents, hsup, hv'⟩
    obtain ⟨hstack, hinvalid⟩ := append_stack_ret cfg
      (show (t.record p argString).goftraceEvent.location = Bpf.retPoint from hloc) h.stack
    have hopen : (v.append cfg (t.record p argString)).stack ≠ [] := by
      rw [hstack]
      exact fun hnil => hne (List.map_eq_nil_iff.mp hnil)
    rw [closes_of_open (hno _) hopen, if_neg Bool.false_ne_true] at hv'
    rw [hv']
    exact ⟨hevents, hstack, hinvalid.trans h.invalid, hsup⟩
  | @close p _ last hp hloc hflags hlast hrep =>
    have hstart : hasFlag t.event Bpf.traceStart = false := hasFlag_ite (by decide) hflags
    have hlive := h.live full argString hp hloc (by decide)
      (fun hs => absurd (hstart.symm.trans hs) Bool.false_ne_true) (hasFlag_ite (by decide) hflags)
    have hreturn : t.isEntry = true → ∀ u ∈ sample, u.id ≠ t.id := by
      simp [CallEvent.isEntry, hloc, Bpf.retPoint, Bpf.entPoint]
    refine (h.append hlast hrep hreturn hlive).imp_left ?_
    rintro ⟨w, rfl, hevents, hsup, hv'⟩
    obtain ⟨hstack, -⟩ := append_stack_ret cfg
      (show (t.record p argString).goftraceEvent.location = Bpf.retPoint from hloc) h.stack
    have hne : (v.append cfg (t.record p argString)).events ≠ [] := by
      rw [EventManager.append_events]
      exact List.append_ne_nil_of_right_ne_nil _ (List.cons_ne_nil _ _)
    rw [closes_of_ended hflags hstack hne, if_pos rfl] at hv'
    rw [hv', View.clear, hsup]
    exact retains_empty
  | orphan ha hloc =>
    left
    rw [handle_orphan full argString (List.map_eq_nil_iff.mp h.events) ha hloc]
    exact h
  | abort ha _ hloc hflags =>
    left
    have habort : (cfg.adaptive && hasFlag t.event Bpf.traceAbort) = true := by
      rw [ha, hasFlag, hflags]
      decide
    rw [View.handle, if_neg hloc, if_pos habort]
    exact retains_empty

/-- A sample that met the memory budget stays lost until the next one. -/
theorem handle_lost (ha : cfg.adaptive = true)
    (ht : Recording cfg t sample stack sample' stack') (b : Bool) :
    Retains sample' stack' (View.handle cfg full t.event argString { suppressed := b }).1 ∨
      ∃ b', (View.handle cfg full t.event argString { suppressed := b }).1 =
        { suppressed := b' } := by
  have hadmitted : View.admitted cfg t.event { suppressed := b } = {} := by
    simp [View.admitted, View.reset, ha]
  have hstep := View.handle_cases cfg full t.event argString { suppressed := b }
  generalize (View.handle cfg full t.event argString { suppressed := b }).1 = v' at hstep ⊢
  generalize (View.handle cfg full t.event argString { suppressed := b }).2 = outcome at hstep
  cases hstep with
  | exited _ => exact .inr ⟨false, rfl⟩
  | aborted _ _ => exact .inr ⟨false, rfl⟩
  | suppressed _ _ _ => exact .inr ⟨_, rfl⟩
  | overBudget _ _ => exact .inr ⟨_, rfl⟩
  | unresolved _ => exact .inr ⟨false, hadmitted⟩
  | unwanted _ _ => exact .inr ⟨false, hadmitted⟩
  | @kept p _ hp hret hopen =>
    rw [hadmitted] at hret
    cases hret with
    | replace hlast _ => cases hlast
    | append hfirst hdup =>
      have hstart : hasFlag t.event Bpf.traceStart = true ∧ t.event.location = Bpf.entPoint := by
        have hopens := hfirst rfl
        simp only [View.opensStack, ha, Bool.and_eq_true, beq_iff_eq] at hopens
        exact ⟨by simpa using hopens.2, hopens.1⟩
      -- only the first event of a sample carries the flag
      cases ht with
      | first _ hloc hflags =>
        have hlive : Live cfg full t p argString {} _ := .kept (.append hfirst hdup) hopen
        rcases hlive.first ⟨rfl, rfl, rfl, rfl⟩ hloc hflags with hretains | h
        · exact .inl hretains
        · exact .inr h.lost
      | entry _ _ hflags _ _ _ => exact absurd hstart.1 (by simp [hasFlag_zero hflags])
      | again _ _ hflags _ _ _ => exact absurd hstart.1 (by simp [hasFlag_zero hflags])
      | ret _ _ hflags _ _ _ => exact absurd hstart.1 (by simp [hasFlag_zero hflags])
      | close _ hloc _ _ _ =>
        rw [hloc] at hstart
        exact absurd hstart.2 (by decide)
      | orphan hno _ =>
        rw [ha] at hno
        cases hno
      | abort _ _ _ hflags =>
        rw [hasFlag, hflags] at hstart
        exact absurd hstart.1 (by decide)
  | closed _ hret _ =>
    refine .inr ⟨false, ?_⟩
    rw [hadmitted] at hret
    cases hret with
    | replace hlast _ => cases hlast
    | append _ _ =>
      rw [View.clear, EventManager.append_suppressed]

end

/-! ## Every run -/

/-- The counters of rejected samples and evicted processes never fall. -/
theorem handle_counters (cfg : EventManager.Config) (env : EventManager.Env) (m : EventManager)
    (event : Bpf.Event) :
    m.droppedOverBudget ≤ (EventManager.handle cfg env m event).1.droppedOverBudget ∧
      m.evictedPIDs ≤ (EventManager.handle cfg env m event).1.evictedPIDs := by
  obtain ⟨m₁, m₂, hfirst, haction, hlast⟩ := EventManager.handle_local cfg env m event
  rw [hlast.droppedOverBudget, hlast.evictedPIDs, ← hfirst.droppedOverBudget,
    ← hfirst.evictedPIDs]
  cases haction with
  | none => exact ⟨Nat.le_refl _, Nat.le_refl _⟩
  | overBudget _ _ => exact ⟨Nat.le_succ _, Nat.le_refl _⟩
  | evict _ => exact ⟨Nat.le_refl _, Nat.le_succ _⟩

/-- Processes are evicted with adaptive sampling only. -/
theorem adaptive_of_evicted {cfg : EventManager.Config} {env : EventManager.Env}
    {m : EventManager} {event : Bpf.Event}
    (h : m.evictedPIDs < (EventManager.handle cfg env m event).1.evictedPIDs) :
    cfg.adaptive = true := by
  obtain ⟨m₁, m₂, hfirst, haction, hlast⟩ := EventManager.handle_local cfg env m event
  rw [hlast.evictedPIDs, ← hfirst.evictedPIDs] at h
  cases haction with
  | none => exact absurd h (Nat.lt_irrefl _)
  | overBudget ha _ => exact ha
  | evict hv =>
    unfold EventManager.victim at hv
    split at hv
    · rename_i hcond
      simp only [Bool.and_eq_true] at hcond
      exact hcond.1.2
    · cases hv

/-- The memory of the manager ran out. -/
def RanOut (m : EventManager) : Prop := 0 < m.droppedOverBudget ∨ 0 < m.evictedPIDs

theorem RanOut.handle {m : EventManager} (h : RanOut m) (cfg : EventManager.Config)
    (env : EventManager.Env) (event : Bpf.Event) :
    RanOut (EventManager.handle cfg env m event).1 := by
  obtain ⟨hdropped, hevicted⟩ := handle_counters cfg env m event
  exact h.imp (fun h => Nat.lt_of_lt_of_le h hdropped) fun h => Nat.lt_of_lt_of_le h hevicted

/-- An event that finds the budget used up is counted. -/
theorem ranOut_of_full {cfg : EventManager.Config} (ha : cfg.adaptive = true)
    (env : EventManager.Env) {m : EventManager} {event : Bpf.Event}
    (hfull : EventManager.budgetFull cfg m event = true)
    (hsup : (m.view event.key).suppressed = false)
    (hloc : event.location ≠ Bpf.goroutineExitPoint)
    (habort : hasFlag event Bpf.traceAbort = false) :
    RanOut (EventManager.handle cfg env m event).1 := by
  have hover : EventManager.overBudget cfg m event = true := by
    have hno : decide (event.key ∈ m.suppressed) = false := hsup
    simp [EventManager.overBudget, EventManager.asksAdmission, hloc, ha, habort, hno, hfull]
  have htally := congrArg EventManager.Tally.overBudget
    (EventManager.handle_tally cfg env m event ha)
  rw [hover] at htally
  left
  change 0 < (EventManager.handle cfg env m event).1.tally.overBudget
  rw [htally]
  exact Nat.succ_pos _

/-- The manager has the records of a sample, or it has nothing and its memory ran out. -/
def Keeps (cfg : EventManager.Config) (sample : List CallEvent) (stack : List (Nat × UInt64))
    (m : EventManager) (k : GoidKey) : Prop :=
  Retains sample stack (m.view k) ∨
    cfg.adaptive = true ∧ RanOut m ∧ ∃ b, m.view k = { suppressed := b }

theorem Keeps.handle_own {cfg : EventManager.Config} {m : EventManager} {t : CallEvent}
    {sample sample' : List CallEvent} {stack stack' : List (Nat × UInt64)}
    (h : Keeps cfg sample stack m t.event.key)
    (ht : Recording cfg t sample stack sample' stack') (env : EventManager.Env) :
    Keeps cfg sample' stack' (EventManager.handle cfg env m t.event).1 t.event.key := by
  have hview := (EventManager.handle_view cfg env m t.event).1
  rcases h with h | ⟨ha, hout, b, hb⟩
  · rcases h.handle (EventManager.budgetFull cfg m t.event) (EventManager.argText cfg m t.event) ht
      with hretains | hrejected
    · left
      rw [hview]
      exact hretains
    · obtain ⟨ha, hfull, hloc, habort, b, hb⟩ := hrejected
      refine .inr ⟨ha, ranOut_of_full ha env hfull h.suppressed hloc habort, b, ?_⟩
      rw [hview, hb]
  · rw [hb] at hview
    rcases handle_lost (EventManager.budgetFull cfg m t.event)
      (EventManager.argText cfg m t.event) ha ht b with hretains | ⟨b', hb'⟩
    · left
      rw [hview]
      exact hretains
    · refine .inr ⟨ha, hout.handle cfg env _, b', ?_⟩
      rw [hview, hb']

theorem Keeps.handle_other {cfg : EventManager.Config} {m : EventManager}
    {sample : List CallEvent} {stack : List (Nat × UInt64)} {k : GoidKey}
    (h : Keeps cfg sample stack m k) (env : EventManager.Env) {event : Bpf.Event}
    (hk : k ≠ event.key) : Keeps cfg sample stack (EventManager.handle cfg env m event).1 k := by
  have heffect := EventManager.handle_view_of_ne cfg env m hk
  unfold Keeps
  generalize (EventManager.handle cfg env m event).1.view k = v' at heffect ⊢
  cases heffect with
  | same => exact h.imp_right fun ⟨ha, hout, hb⟩ => ⟨ha, hout.handle cfg env event, hb⟩
  | freed _ =>
    rcases h with h | ⟨ha, hout, b, hb⟩
    · exact .inl ⟨h.events, h.stack, h.invalid, rfl⟩
    · exact .inr ⟨ha, hout.handle cfg env event, false, by rw [hb]⟩
  | evicted hevicted =>
    exact .inr ⟨adaptive_of_evicted hevicted, .inr (Nat.zero_lt_of_lt hevicted), false, rfl⟩

/-- The manager keeps the records of the open sample, when every event of the goroutine has
arrived. -/
theorem retains_delivered (cfg : EventManager.Config) {k : GoidKey}
    (arrivals : List (Bpf.Event × EventManager.Env)) {log sample : List CallEvent}
    {stack : List (Nat × UInt64)} (h : Recorded cfg log sample stack)
    (hlog : EventManager.delivered k arrivals = log.map CallEvent.event) :
    Keeps cfg sample stack (EventManager.handleAll cfg {} arrivals).1 k := by
  induction arrivals using List.reverseRecOn generalizing log sample stack with
  | nil =>
    have hnil := List.map_eq_nil_iff.mp hlog.symm
    cases h with
    | nil => exact .inl retains_empty
    | snoc _ _ => exact absurd hnil (by simp)
  | append_singleton arrivals a ih =>
    rw [EventManager.delivered_append] at hlog
    rw [EventManager.handleAll_append_fst]
    by_cases hk : k = a.1.key
    · subst hk
      have hown : EventManager.delivered a.1.key [a] = [a.1] := by
        simp [EventManager.delivered]
      rw [hown] at hlog
      cases h with
      | nil => exact absurd hlog (by simp)
      | @snoc log _ _ _ _ t h ht =>
        rw [List.map_append, List.map_singleton] at hlog
        obtain ⟨hlog, heq⟩ := List.append_inj' hlog rfl
        obtain ⟨event, env⟩ := a
        obtain rfl : event = t.event := List.head_eq_of_cons_eq heq
        exact (ih h hlog).handle_own ht env
    · have hown : EventManager.delivered k [a] = [] := by
        simp [EventManager.delivered, Ne.symm hk]
      rw [hown, List.append_nil] at hlog
      exact (ih h hlog).handle_other a.2 hk

end GoFtrace.Tracing
