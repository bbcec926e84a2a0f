import GoFtrace.EventManager.Print
import GoFtrace.Tracing.Pairing

/-!
# Printed stacks

What `PrintStack` gets from `Handle` when stacks are printed, and what it makes of it.

* `handleAll_printed`: a stack that is printed when its last call returns is a tree of calls.
* `handleAll_remaining`: the lines of a stack that is printed at the end.
* `calls_printed`: along every execution, the printed stacks are the samples, call by call.
-/

namespace GoFtrace.Tracing

open EventManager (View GoftraceEvent PrintState hasFlag repeats)
open Lib

/-! ## The observed stack -/

/-- The state of a goroutine whose stack is printed: its events leave a place open for each
element of the observed stack, and none are kept once that is empty. -/
structure Printable (cfg : EventManager.Config) (v : View) : Prop where
  resolved : Resolved cfg v
  placed : cfg.aggregate = false →
    replay EventManager.Event.place v.events [] = some (List.replicate v.stack.length ())
  opened : cfg.aggregate = false → v.events ≠ [] → v.stack ≠ []

section
variable {cfg : EventManager.Config} {m : EventManager} {v v' : View}

theorem printable_empty (b : Bool) : Printable cfg { suppressed := b } where
  resolved e he := by cases he
  placed _ := rfl
  opened _ h := absurd rfl h

theorem Printable.admitted (h : Printable cfg v) (event : GoftraceEvent) :
    Printable cfg (v.admitted cfg event) := by
  unfold View.admitted View.reset
  split
  · split
    · exact printable_empty false
    · exact ⟨h.resolved, h.placed, h.opened⟩
  · exact h

/-- A repeated event has the place of the one that it repeats. -/
theorem place_of_isDuplicate {last : EventManager.Event} {event : GoftraceEvent}
    (h : EventManager.isDuplicate last event = true) :
    EventManager.Event.place { last with goftraceEvent := event } = last.place := by
  simp only [EventManager.isDuplicate, Bool.and_eq_true, beq_iff_eq] at h
  simp only [EventManager.Event.place, h.1.1]

/-- An event that is retained keeps the places in step. -/
theorem Printable.retained (h : Printable cfg v) (ha : cfg.aggregate = false)
    {record : EventManager.Event} (hret : View.Retained cfg record v v') :
    replay EventManager.Event.place v'.events [] =
      some (List.replicate v'.stack.length ()) := by
  cases hret with
  | append hfirst hdup =>
    unfold View.append View.observe
    dsimp only
    by_cases hent : record.goftraceEvent.location = Bpf.entPoint
    · rw [if_pos hent]
      rw [replay_concat (h.placed ha), EventManager.Event.place, if_pos hent, apply_opens]
      rfl
    · rw [if_neg hent]
      have hne : v.events ≠ [] := fun hnil => by
        have hopens := hfirst hnil
        simp [View.opensStack, hent] at hopens
      by_cases hret : record.goftraceEvent.location = Bpf.retPoint
      · have hmatch : EventManager.returnMismatch cfg v.stack record.funcEntry = false := by
          simp [EventManager.returnMismatch, ha]
        rw [if_pos hret, hmatch]
        obtain ⟨top, stack, hstack⟩ := List.exists_cons_of_ne_nil (h.opened ha hne)
        simp only [Bool.false_eq_true, if_false]
        rw [replay_concat (h.placed ha), EventManager.Event.place, if_neg hent, if_pos hret,
          hstack, List.length_cons, List.replicate_succ, apply_closes_cons, List.tail_cons]
      · rw [if_neg hret]
        rw [replay_concat (h.placed ha), EventManager.Event.place, if_neg hent, if_neg hret,
          apply_skip]
  | @replace last hlast hdup =>
    refine Eq.trans (replay_congr ?_ []) (h.placed ha)
    rw [← List.dropLast_append_getLast? last hlast]
    simp [View.replace, place_of_isDuplicate hdup]

theorem Printable.step (h : Printable cfg v) {full : Bool} {event : GoftraceEvent}
    {argString : String} {outcome : EventManager.Outcome}
    (hstep : View.Step cfg full event argString v v' outcome) : Printable cfg v' := by
  have hresolved := h.resolved.step hstep
  cases hstep with
  | exited _ => exact printable_empty false
  | aborted _ _ => exact printable_empty false
  | suppressed _ _ _ => exact ⟨h.resolved, h.placed, h.opened⟩
  | overBudget _ _ => exact printable_empty _
  | unresolved _ => exact h.admitted event
  | unwanted _ _ => exact h.admitted event
  | closed _ _ _ => exact printable_empty _
  | kept hprobe hret hopen =>
    refine ⟨hresolved, fun ha => (h.admitted event).retained ha hret, fun ha hne hnil => ?_⟩
    simp [View.closes, ha, hnil, List.isEmpty_eq_false_iff.mpr hne] at hopen

theorem handleAll_printable (cfg : EventManager.Config)
    (arrivals : List (GoftraceEvent × EventManager.Env)) (k : Bpf.GoidKey) :
    Printable cfg ((EventManager.handleAll cfg {} arrivals).1.view k) :=
  EventManager.handleAll_induction (P := fun m => ∀ k, Printable cfg (m.view k))
    (fun env m event hm => EventManager.handle_goroutines (printable_empty false)
      (fun _ hv => ⟨hv.resolved, hv.placed, hv.opened⟩) (fun _ _ _ _ _ _ hstep hv => hv.step hstep)
      env m event hm) arrivals (m := {}) (fun _ => printable_empty false) k

/-! ## Printing -/

/-- The stack that is printed when an event closes it is nested, and its addresses resolve. -/
theorem printed_nested (h : ∀ k, Printable cfg (m.view k)) (env : EventManager.Env)
    (event : GoftraceEvent) {events : List EventManager.Event}
    (hout : (EventManager.handle cfg env m event).2 = .printed events) :
    replay EventManager.Event.place events [] = some [] ∧ events ≠ [] ∧
      ∀ e ∈ events, cfg.getUprobe e.goftraceEvent.ip = some e.uprobe := by
  have hstep := EventManager.handle_step cfg env m event
  rw [hout] at hstep
  generalize hclosing : EventManager.Outcome.printed events = outcome at hstep
  generalize (EventManager.handle cfg env m event).1.view event.key = v' at hstep
  cases hstep with
  | @closed probe w hprobe hret hclose =>
    obtain ⟨ha, rfl⟩ := View.closing_printed hclosing.symm
    have hclosed : w.stack = [] ∧ w.events ≠ [] := by
      simpa [View.closes, ha, List.isEmpty_iff] using hclose
    have hadm := (h event.key).admitted event
    have hplaced := hadm.retained ha hret
    rw [hclosed.1] at hplaced
    exact ⟨hplaced, hclosed.2, hadm.resolved.retained hprobe hret⟩
  | _ => cases hclosing

/-- A probe is found by an address that resolves. -/
theorem resolves_of_getUprobe {ip : UInt64} {p : GoFtrace.Uprobe}
    (h : cfg.getUprobe ip = some p) : Elf.resolveAddress cfg.symbols ip ≠ none := by
  intro hnone
  rw [EventManager.Config.getUprobe, hnone] at h
  cases h

variable {τ : Type}

/-- A stack that is printed as its last call returns: `PrintStack` writes the tree of its calls,
unless the address of a caller does not resolve, or the line table panics. -/
theorem handleAll_printed (arrivals : List (GoftraceEvent × EventManager.Env))
    (env : EventManager.Env) {event : GoftraceEvent} {events : List EventManager.Event}
    (hout : (EventManager.handle cfg env (EventManager.handleAll cfg {} arrivals).1 event).2 =
      .printed events)
    ( trimprefix : String) (f : Elf.File τ) (cache : Elf.Cache τ) :
    EventManager.Ends cfg f events (EventManager.PrintsTree cfg trimprefix f events)
        (EventManager.printStack cfg trimprefix f cache events) ∧
      events ≠ [] ∧
      ∀ e ∈ events, ∀ err, EventManager.Unprintable cfg e err →
        e.goftraceEvent.location = Bpf.entPoint ∧ e.goftraceEvent.callerIp ≠ 0 ∧
          Elf.resolveAddress cfg.symbols e.goftraceEvent.callerIp = none ∧
          err = Elf.notFound e.goftraceEvent.callerIp := by
  obtain ⟨hnested, hne, hresolved⟩ :=
    printed_nested (handleAll_printable cfg arrivals) env event hout
  refine ⟨EventManager.printStack_tree hnested cache, hne, fun e he err herr => ?_⟩
  cases herr with
  | ip h => exact absurd h (resolves_of_getUprobe (hresolved e he))
  | callerIp hloc hcaller h => exact ⟨hloc, hcaller, h, rfl⟩

/-- `R` calls `A`, which returns. -/
def nestedEvents : List GoftraceEvent :=
  [EventManager.sampleStart 1,
    { EventManager.sampleStart 1 with ip := 48, bp := 4000, timeNs := 100, traceFlags := 0 },
    { EventManager.sampleEnd 1 with ip := 63, timeNs := 200, traceFlags := 0 }]

/-- `R` returns behind them. -/
theorem handleAll_printed_call :
    let cfg := EventManager.sampleConfig false
    ∃ events, (EventManager.handle cfg EventManager.sampleEnv
        (EventManager.handleAll cfg {} (EventManager.sampleArrivals nestedEvents)).1
        (EventManager.sampleEnd 1)).2 = .printed events ∧ events.length = 4 ∧
      EventManager.Ends cfg Elf.oneUnit events
        (EventManager.PrintsTree cfg "" Elf.oneUnit events)
        (EventManager.printStack cfg "" Elf.oneUnit {} events) := by
  intro cfg
  obtain ⟨events, hout, hlength⟩ : ∃ events, (EventManager.handle cfg EventManager.sampleEnv
      (EventManager.handleAll cfg {} (EventManager.sampleArrivals nestedEvents)).1
      (EventManager.sampleEnd 1)).2 = .printed events ∧ events.length = 4 :=
    ⟨_, by with_unfolding_all rfl, by with_unfolding_all rfl⟩
  exact ⟨events, hout, hlength, (handleAll_printed _ _ hout _ _ _).1⟩

end

/-! ## The calls of a sample -/

/-- The latest entry of each call, and the returns, in order. -/
def latestEach : List CallEvent → List CallEvent
  | [] => []
  | t :: ts =>
    if ts.any fun u => u.isEntry && u.id == t.id then latestEach ts else t :: latestEach ts

theorem latestEach_cons (t : CallEvent) (ts : List CallEvent) :
    latestEach (t :: ts) =
      if ts.any fun u => u.isEntry && u.id == t.id then latestEach ts
      else t :: latestEach ts := rfl

/-- These are the calls of the records. -/
theorem latestEach_event (sample : List CallEvent) :
    (latestEach sample).map CallEvent.event = oneEach sample := by
  induction sample with
  | nil => rfl
  | cons t ts ih =>
    rw [latestEach_cons, oneEach_cons]
    split
    · exact ih
    · rw [List.map_cons, ih]

theorem latestEach_append {sample : List CallEvent} {t : CallEvent}
    (h : t.isEntry = true → ∀ u ∈ sample, u.id ≠ t.id) :
    latestEach (sample ++ [t]) = latestEach sample ++ [t] := by
  induction sample with
  | nil => rfl
  | cons u sample ih =>
    have hu : (t.isEntry && t.id == u.id) = false := by
      rw [Bool.and_eq_false_iff]
      cases ht : t.isEntry with
      | false => exact .inl rfl
      | true => exact .inr (beq_eq_false_iff_ne.mpr (Ne.symm (h ht u List.mem_cons_self)))
    rw [List.cons_append, latestEach_cons, latestEach_cons, List.any_append,
      ih fun ht v hv => h ht v (List.mem_cons_of_mem _ hv)]
    simp only [List.any_cons, List.any_nil, hu, Bool.or_false]
    split <;> rfl

/-- A call that is entered again is the last one. -/
theorem latestEach_again (sample : List CallEvent) {last t : CallEvent} (hid : last.id = t.id)
    (hlast : last.isEntry = true) (ht : t.isEntry = true) :
    ∃ calls, latestEach (sample ++ [last]) = calls ++ [last] ∧
      latestEach (sample ++ [last] ++ [t]) = calls ++ [t] := by
  induction sample with
  | nil =>
    refine ⟨[], rfl, ?_⟩
    simp [latestEach, hid, ht]
  | cons u sample ih =>
    obtain ⟨calls, hone, htwo⟩ := ih
    have hany : (sample ++ [last] ++ [t]).any (fun w => w.isEntry && w.id == u.id) =
        (sample ++ [last]).any fun w => w.isEntry && w.id == u.id := by
      simp [hid, hlast, ht]
    rw [List.cons_append, List.cons_append, latestEach_cons, latestEach_cons, hany, hone, htwo]
    split
    · exact ⟨calls, rfl, rfl⟩
    · exact ⟨u :: calls, rfl, rfl⟩

/-- The open sample and its open calls: the calls close each other, the first one of the sample
is the outermost, and no call is open twice. -/
structure SampleCalls (cfg : EventManager.Config) (sample : List CallEvent)
    (stack : List (Nat × UInt64)) : Prop where
  replays : replay (callToken cfg) (latestEach sample) [] = some stack
  tokens : ∀ t ∈ latestEach sample, callToken cfg t ≠ .skip
  nodup : (stack.map Prod.fst).Nodup
  mem : ∀ i ∈ stack.map Prod.fst, ∃ u ∈ sample, u.id = i
  root : (stack.getLast?).map Prod.fst = (sample.head?).map CallEvent.id

theorem sampleCalls_nil (cfg : EventManager.Config) : SampleCalls cfg [] [] where
  replays := rfl
  tokens _ ht := absurd ht List.not_mem_nil
  nodup := List.nodup_nil
  mem _ hi := absurd hi List.not_mem_nil
  root := rfl

section
variable {cfg : EventManager.Config} {log sample sample' : List CallEvent}
  {stack stack' : List (Nat × UInt64)} {t : CallEvent}

/-- The calls after an event that is added to the sample. -/
theorem SampleCalls.append_calls (h : SampleCalls cfg sample stack)
    (hfresh : t.isEntry = true → ∀ u ∈ sample, u.id ≠ t.id) (htoken : callToken cfg t ≠ .skip)
    (happly : (callToken cfg t).apply stack = some stack') :
    replay (callToken cfg) (latestEach (sample ++ [t])) [] = some stack' ∧
      ∀ u ∈ latestEach (sample ++ [t]), callToken cfg u ≠ .skip := by
  rw [latestEach_append hfresh]
  refine ⟨?_, fun u hu => ?_⟩
  · rw [Lib.replay_concat h.replays, happly]
  · rcases List.mem_append.mp hu with hu | hu
    · exact h.tokens u hu
    · rw [List.mem_singleton.mp hu]
      exact htoken

theorem SampleCalls.stack_ne (h : SampleCalls cfg sample stack) {last : CallEvent}
    (hlast : sample.getLast? = some last) : stack ≠ [] := by
  rintro rfl
  have hroot := h.root
  cases sample with
  | nil => cases hlast
  | cons u us => cases hroot

/-- The calls after a return of the innermost one. -/
theorem SampleCalls.return_calls {entry : UInt64}
    (h : SampleCalls cfg sample ((t.id, entry) :: stack))
    {p : GoFtrace.Uprobe} (hentry : entry = p.address - p.relOffset)
    (hloc : t.event.location = Bpf.retPoint) (hp : cfg.getUprobe t.event.ip = some p) :
    replay (callToken cfg) (latestEach (sample ++ [t])) [] = some stack ∧
      ∀ u ∈ latestEach (sample ++ [t]), callToken cfg u ≠ .skip := by
  subst hentry
  have htoken := callToken_return hloc hp
  refine h.append_calls ?_ ?_ ?_
  · simp [CallEvent.isEntry, hloc, Bpf.retPoint, Bpf.entPoint]
  · simp [htoken]
  · rw [htoken, Lib.apply_closes_cons]

theorem SampleCalls.recording (h : SampleCalls cfg sample stack)
    (ht : Recording cfg t sample stack sample' stack') : SampleCalls cfg sample' stack' := by
  cases ht with
  | first hp hloc hflags =>
    have htoken : callToken cfg t = .opens (t.id, t.event.ip) := callToken_entry hloc
    have hne : callToken cfg t ≠ .skip := by simp [htoken]
    obtain ⟨hreplay, htokens⟩ := h.append_calls (fun _ u hu => absurd hu List.not_mem_nil) hne
      (by rw [htoken, Lib.apply_opens])
    exact ⟨hreplay, htokens, List.nodup_singleton _, by simp, rfl⟩
  | @entry p _ _ last hp hloc hflags hlast hrep hfresh =>
    have htoken : callToken cfg t = .opens (t.id, t.event.ip) := callToken_entry hloc
    obtain ⟨hreplay, htokens⟩ := h.append_calls (fun _ => hfresh) (by simp [htoken])
      (by rw [htoken, Lib.apply_opens])
    refine ⟨hreplay, htokens, ?_, ?_, ?_⟩
    · refine List.nodup_cons.mpr ⟨fun hmem => ?_, h.nodup⟩
      obtain ⟨u, hu, hid⟩ := h.mem _ hmem
      exact hfresh u hu hid
    · intro i hi
      rcases List.mem_cons.mp hi with rfl | hi
      · exact ⟨t, by simp, rfl⟩
      · obtain ⟨u, hu, hid⟩ := h.mem i hi
        exact ⟨u, List.mem_append_left _ hu, hid⟩
    · rw [List.getLast?_cons_of_ne_nil (h.stack_ne hlast), h.root]
      cases sample with
      | nil => cases hlast
      | cons u us => rfl
  | @again p sample _ last hp hloc hflags hrep hid hne =>
    simp only [repeats, Bool.and_eq_true, beq_iff_eq] at hrep
    have hlastLoc : last.event.location = Bpf.entPoint := hrep.1.1.trans hloc
    have hsame : callToken cfg last = callToken cfg t := by
      rw [callToken_entry hlastLoc, callToken_entry hloc, hid, hrep.1.2]
    obtain ⟨calls, hone, htwo⟩ := latestEach_again sample hid
      (by simp [CallEvent.isEntry, hlastLoc]) (by simp [CallEvent.isEntry, hloc])
    have hreplay := h.replays
    have htokens := h.tokens
    rw [hone] at hreplay htokens
    refine ⟨?_, ?_, h.nodup, ?_, ?_⟩
    · rw [htwo, ← hreplay]
      exact Lib.replay_congr (by simp [hsame]) []
    · rw [htwo]
      intro u hu
      rcases List.mem_append.mp hu with hu | hu
      · exact htokens u (List.mem_append_left _ hu)
      · rw [List.mem_singleton.mp hu, ← hsame]
        exact htokens last (by simp)
    · intro i hi
      obtain ⟨u, hu, hid⟩ := h.mem i hi
      exact ⟨u, List.mem_append_left _ hu, hid⟩
    · rw [h.root]
      cases sample <;> rfl
  | @ret p _ _ last hp hloc hflags hlast hrep hne =>
    obtain ⟨hreplay, htokens⟩ := h.return_calls rfl hloc hp
    refine ⟨hreplay, htokens, (List.nodup_cons.mp h.nodup).2, ?_, ?_⟩
    · intro i hi
      obtain ⟨u, hu, hid⟩ := h.mem i (List.mem_cons_of_mem _ hi)
      exact ⟨u, List.mem_append_left _ hu, hid⟩
    · have hroot := h.root
      rw [List.getLast?_cons_of_ne_nil hne] at hroot
      rw [hroot]
      cases sample with
      | nil => cases hlast
      | cons u us => rfl
  | close _ _ _ _ _ => exact sampleCalls_nil cfg
  | orphan _ _ => exact sampleCalls_nil cfg
  | abort _ _ _ _ => exact sampleCalls_nil cfg

/-- A sample that is closed leaves no call open. -/
theorem SampleCalls.closed (h : SampleCalls cfg sample stack)
    (ht : Recording cfg t sample stack sample' stack') (hclosed : sample' = [])
    (hne : sample ≠ []) (hno : t.event.traceFlags ≠ Bpf.traceAbort) :
    replay (callToken cfg) (latestEach (sample ++ [t])) [] = some [] ∧
      ∀ u ∈ latestEach (sample ++ [t]), callToken cfg u ≠ .skip := by
  cases ht with
  | first _ _ _ => cases hclosed
  | entry _ _ _ _ _ _ => exact absurd hclosed (by simp)
  | again _ _ _ _ _ _ => exact absurd hclosed (by simp)
  | ret _ _ _ _ _ _ => exact absurd hclosed (by simp)
  | close hp hloc _ _ _ => exact h.return_calls rfl hloc hp
  | orphan _ _ => exact absurd rfl hne
  | abort _ _ _ hflags => exact absurd hflags hno

/-- The return of the call that the open sample started with. -/
structure ClosesSample (before : List CallEvent) (t : CallEvent) : Prop where
  location : t.event.location = Bpf.retPoint
  flags : t.event.traceFlags ≠ Bpf.traceAbort
  root : ((sampleOf before).head?).map CallEvent.id = some t.id

theorem ClosesSample.extend {before : List CallEvent} (h : ClosesSample before t) :
    extendSample (sampleOf before) t = [] ∧ sampleOf before ≠ [] := by
  have hroot := h.root
  cases hsample : sampleOf before with
  | nil =>
    rw [hsample] at hroot
    cases hroot
  | cons root ts =>
    rw [hsample] at hroot
    refine ⟨?_, List.cons_ne_nil _ _⟩
    rw [extendSample_return h.location h.flags, if_pos (Option.some.inj hroot)]

/-- An event continues the sample as the log says. -/
theorem SampleCalls.extend (h : SampleCalls cfg sample stack)
    (ht : Recording cfg t sample stack sample' stack') : sample' = extendSample sample t := by
  have hzero : t.event.traceFlags = 0 → t.event.traceFlags ≠ Bpf.traceAbort := by
    intro hflags
    rw [hflags]
    decide
  cases ht with
  | first hp hloc hflags =>
    have hno : t.event.traceFlags ≠ Bpf.traceAbort := by
      rw [hflags]
      split <;> decide
    exact (extendSample_entry hloc hno []).symm
  | entry hp hloc hflags hlast hrep hfresh =>
    exact (extendSample_entry hloc (hzero hflags) _).symm
  | again hp hloc hflags hrep hid hne => exact (extendSample_entry hloc (hzero hflags) _).symm
  | ret hp hloc hflags hlast hrep hne =>
    cases sample with
    | nil => cases hlast
    | cons root ts =>
      -- the root is the outermost of the open calls, so that it is not the innermost
      have hroot := h.root
      rw [List.getLast?_cons_of_ne_nil hne, List.getLast?_eq_some_getLast hne] at hroot
      have hmem : root.id ∈ stack'.map Prod.fst := by
        refine List.mem_map.mpr ⟨_, List.getLast_mem hne, Option.some.inj hroot⟩
      have hid : root.id ≠ t.id := by
        intro heq
        rw [heq] at hmem
        exact (List.nodup_cons.mp h.nodup).1 hmem
      rw [extendSample, if_neg (hzero hflags), if_pos hloc]
      exact (if_neg hid).symm
  | close hp hloc hflags hlast hrep =>
    cases sample with
    | nil => cases hlast
    | cons root ts =>
      have hid : root.id = t.id := (Option.some.inj h.root).symm
      have hno : t.event.traceFlags ≠ Bpf.traceAbort := by
        rw [hflags]
        split <;> decide
      rw [extendSample, if_neg hno, if_pos hloc]
      exact (if_pos hid).symm
  | orphan ha hloc => exact (extendSample_orphan hloc).symm
  | abort _ _ _ hflags => exact (extendSample_abort hflags _).symm

theorem Recorded.sampleCalls (h : Recorded cfg log sample stack) :
    SampleCalls cfg sample stack ∧ sample = sampleOf log := by
  induction h with
  | nil => exact ⟨sampleCalls_nil cfg, rfl⟩
  | snoc h ht ih =>
    refine ⟨ih.1.recording ht, ?_⟩
    rw [sampleOf_append, ← ih.2]
    exact ih.1.extend ht

end

/-! ## Sound prints -/

section
variable {cfg : EventManager.Config} {full : Bool} {argString : String} {v v' : View}
  {sample sample' : List CallEvent} {stack stack' : List (Nat × UInt64)} {t : CallEvent}
  {events : List EventManager.Event}

/-- `drilldown` allows the stack to be printed, for the address of its last return. -/
def Shown (cfg : EventManager.Config) (ip : UInt64) : Prop :=
  cfg.drilldown = "" ∨ ∃ sym syms offset,
    Elf.resolveAddress cfg.symbols ip = some (sym :: syms, offset) ∧ sym.name = cfg.drilldown

theorem closing_shown {event : GoftraceEvent} (ha : cfg.aggregate = false)
    (h : Shown cfg event.ip) : v.closing cfg event = .printed v.events := by
  rw [View.closing, ha, if_neg Bool.false_ne_true]
  rcases h with hempty | ⟨sym, syms, offset, hresolve, hname⟩
  · rw [if_pos hempty]
  · rw [hresolve]
    dsimp only
    rw [if_pos hname]
    split <;> rfl

theorem shown_of_closing {event : GoftraceEvent} (h : v.closing cfg event = .printed events) :
    Shown cfg event.ip := by
  unfold View.closing at h
  split at h
  · split at h <;> cases h
  · split at h
    · rename_i hempty
      exact .inl hempty
    · split at h
      · rename_i sym syms offset hresolve
        split at h
        · rename_i hname
          exact .inr ⟨sym, syms, offset, hresolve, hname⟩
        · cases h
      · cases h

/-- Stacks are printed once no call is open. -/
theorem printed_cases {event : GoftraceEvent} {outcome : EventManager.Outcome}
    (h : View.Step cfg full event argString v v' outcome) (hout : outcome = .printed events) :
    ∃ p w, cfg.getUprobe event.ip = some p ∧
      View.Retained cfg { goftraceEvent := event, uprobe := p, argString := argString }
        (v.admitted cfg event) w ∧ w.closes cfg event = true ∧ events = w.events ∧
        Shown cfg event.ip := by
  cases h with
  | @closed p w hprobe hret hclose =>
    have hshown := shown_of_closing hout
    obtain ⟨-, rfl⟩ := View.closing_printed hout
    exact ⟨p, w, hprobe, hret, hclose, rfl, hshown⟩
  | _ => cases hout

/-- The first event of a stack leaves its call open. -/
theorem stack_of_first {record : EventManager.Event} {w : View} (hnil : v.events = [])
    (hret : View.Retained cfg record v w) : w.stack ≠ [] := by
  cases hret with
  | append hfirst _ =>
    have hopens := hfirst hnil
    simp only [View.opensStack, Bool.and_eq_true, beq_iff_eq] at hopens
    rw [(append_stack_entry cfg v hopens.1).1]
    exact List.cons_ne_nil _ _
  | replace hmem _ =>
    rw [hnil] at hmem
    cases hmem

/-- Without events no stack is closed. -/
theorem Recording.not_closed (ht : Recording cfg t sample stack sample' stack')
    (ha : cfg.adaptive = true) (hnil : (v.admitted cfg t.event).events = [])
    {p : GoFtrace.Uprobe} {w : View}
    (hret : View.Retained cfg (t.record p argString) (v.admitted cfg t.event) w) :
    w.closes cfg t.event = false := by
  have hstart : hasFlag t.event Bpf.traceStart = true := by
    cases hret with
    | append hfirst _ =>
      have hopens := hfirst hnil
      simp only [View.opensStack, ha, Bool.not_true, Bool.false_or, Bool.and_eq_true] at hopens
      exact hopens.2
    | replace hmem _ =>
      rw [hnil] at hmem
      cases hmem
  refine closes_of_open ?_ (stack_of_first hnil hret)
  cases ht with
  | first _ _ hflags => exact hasFlag_ite (by decide) hflags
  | entry _ _ hflags _ _ _ => exact hasFlag_zero hflags _
  | again _ _ hflags _ _ _ => exact hasFlag_zero hflags _
  | ret _ _ hflags _ _ _ => exact hasFlag_zero hflags _
  | close _ _ hflags _ _ =>
    exact absurd (hstart.symm.trans (hasFlag_ite (by decide) hflags)) (by decide)
  | orphan hnot _ => exact absurd (ha.symm.trans hnot) (by decide)
  | abort _ _ _ hflags =>
    rw [hasFlag, hflags] at hstart
    exact absurd hstart (by decide)

/-- An event of an open sample that repeats no entry is added to the records. -/
theorem Retains.appended (h : Retains sample stack v) {last : CallEvent}
    (hlast : sample.getLast? = some last) (hrep : repeats last.event t.event = false)
    {record : EventManager.Event} (hrecord : record.goftraceEvent = t.event) {w : View}
    (hret : View.Retained cfg record v w) : w = v.append cfg record := by
  cases hret with
  | append _ _ => rfl
  | replace hmem hdup =>
    rw [hrecord, h.isDuplicate hlast hmem, hrep] at hdup
    cases hdup

/-- An event that closes a stack is the return that closes its sample, and the stack has the
records of the sample. -/
theorem Retains.closed (h : Retains sample stack v) (hcalls : SampleCalls cfg sample stack)
    (ht : Recording cfg t sample stack sample' stack')
    (hno : (v.handle cfg full t.event argString).2 ≠ .aborted) {p : GoFtrace.Uprobe}
    (hprobe : cfg.getUprobe t.event.ip = some p) {w : View}
    (hret : View.Retained cfg (t.record p argString) (v.admitted cfg t.event) w)
    (hclose : w.closes cfg t.event = true) :
    (t.event.location = Bpf.retPoint ∧ t.event.traceFlags ≠ Bpf.traceAbort ∧
        (sample.head?).map CallEvent.id = some t.id) ∧
      w.stack = [] ∧ w.invalid = false ∧
      w.events.map EventManager.Event.goftraceEvent = oneEach (sample ++ [t]) := by
  have hzero : t.event.traceFlags = 0 → hasFlag t.event Bpf.traceStart = true → sample = [] := by
    intro hflags hstart
    rw [hasFlag_zero hflags] at hstart
    cases hstart
  have hopen : hasFlag t.event Bpf.traceEnd = false → w.stack ≠ [] → False := by
    intro hend hstack
    exact absurd (hclose.symm.trans (closes_of_open hend hstack)) (by decide)
  have hent : t.event.location = Bpf.entPoint →
      (v.append cfg (t.record p argString)).stack ≠ [] := by
    intro hloc
    rw [(append_stack_entry cfg v hloc).1]
    exact List.cons_ne_nil _ _
  cases ht with
  | first hp hloc hflags =>
    rw [h.admitted fun _ => rfl] at hret
    have hstack := stack_of_first (List.map_eq_nil_iff.mp h.events) hret
    exact (hopen (hasFlag_ite (by decide) hflags) hstack).elim
  | entry hp hloc hflags hlast hrep hfresh =>
    rw [h.admitted (hzero hflags)] at hret
    refine (hopen (hasFlag_zero hflags _) ?_).elim
    rw [h.appended hlast hrep rfl hret]
    exact hent hloc
  | again hp hloc hflags hrep hid hne =>
    rw [h.admitted (hzero hflags)] at hret
    refine (hopen (hasFlag_zero hflags _) ?_).elim
    cases hret with
    | append _ _ => exact hent hloc
    | replace _ _ =>
      change v.stack ≠ []
      rw [h.stack]
      exact fun hnil => hne (List.map_eq_nil_iff.mp hnil)
  | ret hp hloc hflags hlast hrep hne =>
    obtain rfl := Option.some.inj (hp.symm.trans hprobe)
    rw [h.admitted (hzero hflags)] at hret
    refine (hopen (hasFlag_zero hflags _) ?_).elim
    rw [h.appended hlast hrep rfl hret, (append_stack_ret cfg
      (show (t.record _ argString).goftraceEvent.location = Bpf.retPoint from hloc) h.stack).1]
    exact fun hnil => hne (List.map_eq_nil_iff.mp hnil)
  | close hp hloc hflags hlast hrep =>
    obtain rfl := Option.some.inj (hp.symm.trans hprobe)
    have hstart : hasFlag t.event Bpf.traceStart = false := hasFlag_ite (by decide) hflags
    have hreturn : t.isEntry = true → ∀ u ∈ sample, u.id ≠ t.id := by
      simp [CallEvent.isEntry, hloc, Bpf.retPoint, Bpf.entPoint]
    rw [h.admitted fun hs => absurd (hstart.symm.trans hs) Bool.false_ne_true] at hret
    obtain ⟨hstack, hinvalid⟩ := append_stack_ret cfg
      (show (t.record _ argString).goftraceEvent.location = Bpf.retPoint from hloc) h.stack
    rw [h.appended hlast hrep rfl hret]
    refine ⟨⟨hloc, ?_, hcalls.root.symm⟩, hstack, hinvalid.trans h.invalid, ?_⟩
    · rw [hflags]
      split <;> decide
    · rw [EventManager.append_events, List.map_append, h.events, oneEach_append hreturn]
      rfl
  | orphan ha hloc =>
    have hnil : (v.admitted cfg t.event).events = [] := by
      rw [View.admitted, ha]
      exact List.map_eq_nil_iff.mp h.events
    cases hret with
    | append hfirst _ =>
      have hopens := hfirst hnil
      simp only [View.opensStack, Bool.and_eq_true, beq_iff_eq] at hopens
      have hentry : t.event.location = Bpf.entPoint := hopens.1
      rw [hloc] at hentry
      exact absurd hentry (by decide)
    | replace hmem _ =>
      rw [hnil] at hmem
      cases hmem
  | abort ha hp hloc hflags =>
    have habort : (cfg.adaptive && hasFlag t.event Bpf.traceAbort) = true := by
      rw [ha, hasFlag, hflags]
      decide
    rw [View.handle, if_neg hloc, if_pos habort] at hno
    exact absurd rfl hno

/-- A stack that is printed is the sample that its event closes. -/
theorem Retains.printed (h : Retains sample stack v) (hcalls : SampleCalls cfg sample stack)
    (ht : Recording cfg t sample stack sample' stack')
    (hout : (v.handle cfg full t.event argString).2 = .printed events) :
    t.event.location = Bpf.retPoint ∧ t.event.traceFlags ≠ Bpf.traceAbort ∧
      (sample.head?).map CallEvent.id = some t.id ∧ Shown cfg t.event.ip ∧
      events.map EventManager.Event.goftraceEvent = oneEach (sample ++ [t]) := by
  obtain ⟨p, w, hprobe, hret, hclose, rfl, hshown⟩ :=
    printed_cases (View.handle_cases cfg full t.event argString v) hout
  have hno : (v.handle cfg full t.event argString).2 ≠ .aborted := by
    rw [hout]
    exact nofun
  obtain ⟨⟨hloc, hflags, hroot⟩, -, -, hevents⟩ := h.closed hcalls ht hno hprobe hret hclose
  exact ⟨hloc, hflags, hroot, hshown, hevents⟩

/-- The event that closes a sample closes its stack, unless it meets the memory budget. -/
theorem Retains.closes (h : Retains sample stack v)
    (ht : Recording cfg t sample stack sample' stack') (hclosed : sample' = [])
    (hne : sample ≠ []) (hno : t.event.traceFlags ≠ Bpf.traceAbort) :
    (∃ w : View, w.stack = [] ∧ w.invalid = false ∧
        (v.handle cfg full t.event argString).2 = w.closing cfg t.event) ∨
      Rejected cfg full t (v.handle cfg full t.event argString).1 := by
  cases ht with
  | first _ _ _ => cases hclosed
  | entry _ _ _ _ _ _ => exact absurd hclosed (by simp)
  | again _ _ _ _ _ _ => exact absurd hclosed (by simp)
  | ret _ _ _ _ _ _ => exact absurd hclosed (by simp)
  | orphan _ _ => exact absurd rfl hne
  | abort _ _ _ hflags => exact absurd hflags hno
  | @close p _ last hp hloc hflags hlast hrep =>
    have hstart : hasFlag t.event Bpf.traceStart = false := hasFlag_ite (by decide) hflags
    have habort : hasFlag t.event Bpf.traceAbort = false := hasFlag_ite (by decide) hflags
    have hadmitted : v.admitted cfg t.event = v :=
      h.admitted fun hs => absurd (hstart.symm.trans hs) Bool.false_ne_true
    obtain ⟨hstack, hinvalid⟩ := append_stack_ret cfg
      (show (t.record p argString).goftraceEvent.location = Bpf.retPoint from hloc) h.stack
    have hcases := View.handle_cases cfg full t.event argString v
    generalize (v.handle cfg full t.event argString).1 = v' at hcases ⊢
    generalize (v.handle cfg full t.event argString).2 = outcome at hcases ⊢
    cases hcases with
    | exited hexit =>
      rw [hloc] at hexit
      exact absurd hexit (by decide)
    | aborted _ hflag => exact absurd (habort.symm.trans hflag) (by decide)
    | suppressed _ hs _ => exact absurd (h.suppressed.symm.trans hs) (by decide)
    | overBudget hadaptive hfull =>
      refine .inr ⟨hadaptive, hfull, ?_, habort, _, rfl⟩
      rw [hloc]
      decide
    | unresolved hnone => exact absurd (hp.symm.trans hnone) (by simp)
    | unwanted hempty _ =>
      rw [hadmitted] at hempty
      exact absurd hempty (h.events_ne hlast)
    | @kept q w hq hret hopen =>
      obtain rfl := Option.some.inj (hp.symm.trans hq)
      rw [hadmitted] at hret
      rw [h.appended hlast hrep rfl hret] at hopen
      have hevents : (v.append cfg (t.record p argString)).events ≠ [] := by
        rw [EventManager.append_events]
        exact List.append_ne_nil_of_right_ne_nil _ (List.cons_ne_nil _ _)
      have hclose := closes_of_ended hflags hstack hevents
      exact absurd (hclose.symm.trans hopen) (by decide)
    | @closed q w hq hret hclose =>
      obtain rfl := Option.some.inj (hp.symm.trans hq)
      rw [hadmitted] at hret
      obtain rfl := h.appended hlast hrep rfl hret
      exact .inl ⟨_, hstack, hinvalid.trans h.invalid, rfl⟩

end

/-! ## Every execution -/

/-- A printed stack shows the calls of a sample: the latest entry of each call with its return,
as a tree that `PrintStack` writes line by line. -/
structure Shows (cfg : EventManager.Config) (sample : List CallEvent)
    (events : List EventManager.Event) : Prop where
  records : events.map EventManager.Event.goftraceEvent = oneEach sample
  tree : ∃ calls : Forest (CallEvent × EventManager.Event),
    calls.flatten = (latestEach sample).zip events ∧
      (∀ q ∈ calls.pairs, q.1.1.event.location = Bpf.entPoint ∧
        q.2.1.event.location = Bpf.retPoint ∧ q.1.1.id = q.2.1.id) ∧
      ∀ (τ : Type) ( trimprefix : String) (f : Elf.File τ) (cache : Elf.Cache τ),
        EventManager.Ends cfg f events
          (EventManager.PrintsCalls cfg trimprefix f 0 (calls.map Prod.snd) { cache := cache })
          (EventManager.printStack cfg trimprefix f cache events)

/-- The place of a record is that of the bracket of its call. -/
theorem place_callToken {cfg : EventManager.Config} {t : CallEvent} {e : EventManager.Event}
    (hevent : t.event = e.goftraceEvent) (hskip : callToken cfg t ≠ .skip) :
    e.place = (callToken cfg t).map fun _ => () := by
  unfold callToken eventToken at hskip ⊢
  rw [hevent] at hskip ⊢
  unfold EventManager.Event.place
  by_cases hent : e.goftraceEvent.location = Bpf.entPoint
  · rw [if_pos hent, if_pos hent]
    rfl
  · rw [if_neg hent] at hskip ⊢
    rw [if_neg hent]
    by_cases hret : e.goftraceEvent.location = Bpf.retPoint
    · rw [if_pos hret] at hskip ⊢
      rw [if_pos hret]
      cases hp : cfg.getUprobe e.goftraceEvent.ip with
      | none =>
        rw [hp] at hskip
        exact absurd rfl hskip
      | some p => rfl
    · rw [if_neg hret] at hskip
      exact absurd rfl hskip

theorem shows_of_replay {cfg : EventManager.Config} {sample : List CallEvent}
    {events : List EventManager.Event}
    (hrecords : events.map EventManager.Event.goftraceEvent = oneEach sample)
    (hreplay : replay (callToken cfg) (latestEach sample) [] = some [])
    (htokens : ∀ t ∈ latestEach sample, callToken cfg t ≠ .skip) : Shows cfg sample events := by
  have hevents : (latestEach sample).map CallEvent.event =
      events.map EventManager.Event.goftraceEvent := by
    rw [latestEach_event, hrecords]
  have hlen : (latestEach sample).length = events.length := by
    have hlen := congrArg List.length hevents
    rwa [List.length_map, List.length_map] at hlen
  have hzip : replay (fun x : CallEvent × EventManager.Event => callToken cfg x.1)
      ((latestEach sample).zip events) [] = some [] := by
    rw [← Lib.replay_map (callToken cfg) Prod.fst, List.map_fst_zip (Nat.le_of_eq hlen), hreplay]
  obtain ⟨calls, hcalls, hflat⟩ := Lib.exists_forest_of_replay hzip
  have hall : ((latestEach sample).zip events).filter (fun x => callToken cfg x.1 ≠ .skip) =
      (latestEach sample).zip events := by
    apply List.filter_eq_self.mpr
    intro x hx
    exact decide_eq_true (htokens x.1 (List.of_mem_zip hx).1)
  rw [hall] at hflat
  have hplace : ∀ x ∈ calls.flatten, x.2.place = (callToken cfg x.1).map fun _ => () := by
    intro x hx
    rw [hflat] at hx
    refine place_callToken ?_ (htokens x.1 (List.of_mem_zip hx).1)
    have hforall : List.Forall₂ (fun t e => CallEvent.event t =
        EventManager.Event.goftraceEvent e) (latestEach sample) events := by
      refine List.forall₂_map_left_iff.mp (List.forall₂_map_right_iff.mp ?_)
      rw [List.forall₂_eq_eq_eq]
      exact hevents
    exact (List.forall₂_iff_zip.mp hforall).2 hx
  refine ⟨hrecords, calls, hflat, fun q hq => ?_, fun τ trimprefix f cache => ?_⟩
  · obtain ⟨k, hopen, hclose⟩ := hcalls.of_mem_pairs hq
    obtain ⟨hentry, hid⟩ := callToken_eq_opens hopen
    obtain ⟨hreturn, hid'⟩ := callToken_eq_closes hclose
    exact ⟨hentry, hreturn, hid.trans hid'.symm⟩
  · have hloop : EventManager.Ends cfg f (calls.map Prod.snd).flatten
        (EventManager.PrintsCalls cfg trimprefix f 0 (calls.map Prod.snd) { cache := cache })
        (EventManager.printLoop cfg trimprefix f { cache := cache } (calls.map Prod.snd).flatten) :=
      EventManager.printLoop_calls (hcalls.map hplace) ⟨rfl, rfl⟩
    rw [Forest.flatten_map, hflat, List.map_snd_zip (Nat.le_of_eq hlen.symm)] at hloop
    exact hloop

/-- A return that closes its sample is printed, and a printed stack is such a sample, with the
calls that were made. -/
structure PrintsRight (cfg : EventManager.Config) (before : List CallEvent) (t : CallEvent)
    (m : EventManager) (out : EventManager.Outcome) : Prop where
  complete : ClosesSample before t → Shown cfg t.event.ip →
    (∃ events, out = .printed events) ∨ cfg.adaptive = true ∧ RanOut m
  sound : ∀ events, out = .printed events →
    ClosesSample before t ∧ Shown cfg t.event.ip ∧ Shows cfg (sampleOf before ++ [t]) events

section
variable {cfg : EventManager.Config} {before : List CallEvent} {t : CallEvent}
  {m : EventManager} {stack stack' : List (Nat × UInt64)}

theorem printsRight_of_keeps (ha : cfg.aggregate = false)
    (h : Keeps cfg (sampleOf before) stack m t.event.key)
    (hcalls : SampleCalls cfg (sampleOf before) stack)
    (ht : Recording cfg t (sampleOf before) stack (extendSample (sampleOf before) t) stack')
    (env : EventManager.Env) :
    PrintsRight cfg before t (EventManager.handle cfg env m t.event).1
      (EventManager.handle cfg env m t.event).2 := by
  obtain ⟨hview, hout⟩ := EventManager.handle_view cfg env m t.event
  refine ⟨fun hcloses hshown => ?_, fun events hprinted => ?_⟩
  · rcases h with h | ⟨hadaptive, hran, -⟩
    · obtain ⟨hclosed, hne⟩ := hcloses.extend
      rcases h.closes ht hclosed hne hcloses.flags with ⟨w, -, -, hclosing⟩ | hrejected
      · refine .inl ⟨w.events, ?_⟩
        rw [hout, hclosing, closing_shown ha hshown]
      · refine .inr ⟨hrejected.adaptive, ?_⟩
        exact ranOut_of_full hrejected.adaptive env hrejected.full h.suppressed hrejected.location
          hrejected.flags
    · exact .inr ⟨hadaptive, hran.handle cfg env t.event⟩
  · rw [hout] at hprinted
    rcases h with h | ⟨hadaptive, -, b, hb⟩
    · obtain ⟨hloc, hflags, hroot, hshown, hrecords⟩ := h.printed hcalls ht hprinted
      have hcloses : ClosesSample before t := ⟨hloc, hflags, hroot⟩
      obtain ⟨hclosed, hne⟩ := hcloses.extend
      obtain ⟨hreplay, htokens⟩ := hcalls.closed ht hclosed hne hflags
      exact ⟨hcloses, hshown, shows_of_replay hrecords hreplay htokens⟩
    · rw [hb] at hprinted
      obtain ⟨p, w, -, hret, hclose, -, -⟩ :=
        printed_cases (View.handle_cases cfg _ t.event _ _) hprinted
      have hnil : (({ suppressed := b } : View).admitted cfg t.event).events = [] := by
        simp [View.admitted, View.reset, hadaptive]
      exact absurd (hclose.symm.trans (ht.not_closed hadaptive hnil hret)) (by decide)

end

/-- In an execution without losses in which calls can be told from moved stacks, what the manager
keeps of the goroutine when an event arrives. -/
theorem kept_before {bcfg : Bpf.Config} {cfg : EventManager.Config} {goexit : UInt64}
    {fns : List TracedFunc} (hparse : cfg.uprobes = parse goexit fns) (hatt : Findable bcfg cfg)
    (k : Bpf.GoidKey) {g : Goroutine} (hg : g.Fresh fns)
    {m : Bpf.Maps} (hm : m.shouldTraceGoid k = none) (steps : List Step)
    (h : Execution.Along bcfg k
      (fun s x => x.Valid fns k s.goroutine ∧ x.Lossless ∧
        (s.kernel.shouldTraceGoid k ≠ none → x.Direct s.goroutine))
      { goroutine := g, kernel := m } steps)
    {before after : List CallEvent} {t : CallEvent}
    (hlog : (Execution.run bcfg k { goroutine := g, kernel := m } steps).log =
      before ++ t :: after)
    (arrivals : List (GoftraceEvent × EventManager.Env))
    (harrivals : EventManager.delivered k arrivals = taken before) :
    ∃ stack stack', t.event.key = k ∧
      Keeps cfg (sampleOf before) stack (EventManager.handleAll cfg {} arrivals).1 k ∧
      SampleCalls cfg (sampleOf before) stack ∧
      Recording cfg t (sampleOf before) stack (extendSample (sampleOf before) t) stack' := by
  have hinit : Reconstructed bcfg cfg fns k { goroutine := g, kernel := m } ∧
      ∀ t ∈ ([] : List CallEvent), t.pushed = true ∧ t.event.key = k :=
    ⟨reconstructed_fresh hg hm, fun t ht => absurd ht List.not_mem_nil⟩
  have hstep : ∀ (s : Execution) (x : Step),
      (Reconstructed bcfg cfg fns k s ∧ ∀ t ∈ s.log, t.pushed = true ∧ t.event.key = k) →
      (x.Valid fns k s.goroutine ∧ x.Lossless ∧
        (s.kernel.shouldTraceGoid k ≠ none → x.Direct s.goroutine)) →
      Reconstructed bcfg cfg fns k (s.step bcfg k x) ∧
        ∀ t ∈ (s.step bcfg k x).log, t.pushed = true ∧ t.event.key = k := by
    intro s x ⟨hs, hlog⟩ ⟨hvalid, hlossless, hdirect⟩
    refine ⟨hs.step hparse hatt hvalid hdirect, fun t ht => ⟨?_, ?_⟩⟩
    · exact pushed_step (fun t ht => (hlog t ht).1) hlossless t ht
    · rcases Execution.mem_step_log ht with ht | ⟨hkey, -⟩
      · exact (hlog t ht).2
      · exact hkey
  have hrun := Execution.run_induction hstep steps hinit h
  rw [hlog] at hrun
  obtain ⟨hs, hlogged⟩ := hrun
  obtain ⟨stack, -, hrecorded⟩ := hs.recorded
  rw [hlog] at hrecorded
  obtain ⟨sample₁, stack₁, sample₂, stack₂, hbefore, ht⟩ := hrecorded.split
  obtain ⟨hcalls, rfl⟩ := hbefore.sampleCalls
  obtain rfl := hcalls.extend ht
  have hkey : t.event.key = k := (hlogged t (by simp)).2
  rw [taken_of_pushed fun u hu => (hlogged u (List.mem_append_left _ hu)).1] at harrivals
  have hkeeps := retains_delivered cfg arrivals hbefore harrivals
  exact ⟨_, _, hkey, hkeeps, hcalls, ht⟩

/-- An execution without losses in which calls can be told from moved stacks is printed sample by
sample: the stack of a sample is printed as the call returns that it started with, with all of
its calls and no others, and no other event prints one. -/
theorem calls_printed {bcfg : Bpf.Config} {cfg : EventManager.Config} {goexit : UInt64}
    {fns : List TracedFunc} (hatt : Attached bcfg cfg goexit fns)
    (hapart : Apart cfg.symbols fns) (ha : cfg.aggregate = false) (k : Bpf.GoidKey)
    {g : Goroutine} (hg : g.Fresh fns) {m : Bpf.Maps} (hm : m.shouldTraceGoid k = none)
    (steps : List Step)
    (h : Execution.Along bcfg k
      (fun s x => x.Valid fns k s.goroutine ∧ x.Lossless ∧
        (s.kernel.shouldTraceGoid k ≠ none → x.Direct s.goroutine))
      { goroutine := g, kernel := m } steps)
    {before after : List CallEvent} {t : CallEvent}
    (hlog : (Execution.run bcfg k { goroutine := g, kernel := m } steps).log =
      before ++ t :: after)
    (arrivals : List (GoftraceEvent × EventManager.Env))
    (harrivals : EventManager.delivered k arrivals = taken before)
    (env : EventManager.Env) :
    let m := (EventManager.handleAll cfg {} arrivals).1
    PrintsRight cfg before t (EventManager.handle cfg env m t.event).1
      (EventManager.handle cfg env m t.event).2 := by
  obtain ⟨stack, stack', hkey, hkeeps, hcalls, ht⟩ :=
    kept_before hatt.parsed (hatt.findable hapart) k hg hm steps h hlog arrivals harrivals
  rw [← hkey] at hkeeps
  exact printsRight_of_keeps ha hkeeps hcalls ht env

/-- The stacks of `treeConfig` are printed. -/
def printConfig : EventManager.Config := { treeConfig with aggregate := false }

theorem attached_print : Attached treeKernel printConfig 8 treeFns where
  parsed := rfl
  sorted := attached_tree.sorted
  loaded := attached_tree.loaded

/-- `R` calls `A`, and both return. -/
def callsOnce : List Step :=
  [.call treeFns[0]? 4096 (hitAt 0 true), .call treeFns[1]? 4000 (hitAt 100 true),
    .ret 15 (hitAt 200 true), .ret 15 (hitAt 300 true)]

theorem along_callsOnce :
    Execution.Along treeKernel treeKey
      (fun s x => x.Valid treeFns treeKey s.goroutine ∧ x.Lossless ∧
        (s.kernel.shouldTraceGoid treeKey ≠ none → x.Direct s.goroutine)) {} callsOnce := by
  refine ⟨⟨⟨probed_tree 0, by decide, by decide⟩, rfl, ?_⟩,
    ⟨⟨probed_tree 1, by decide, by decide⟩, rfl, ?_⟩,
    ⟨⟨_, _, rfl, rets_tree 1⟩, rfl, fun _ => trivial⟩,
    ⟨⟨_, _, rfl, rets_tree 0⟩, rfl, fun _ => trivial⟩, trivial⟩
  · exact fun hstate => absurd rfl hstate
  · intro _ bp hlast
    exact absurd (congrArg Prod.fst (Option.some.inj hlast)) (by decide : (16 : UInt64) ≠ 48)

def onceLog : List CallEvent := (Execution.run treeKernel treeKey {} callsOnce).log

/-- Both calls are in the stack that the return of `R` prints. -/
theorem calls_printed_once :
    ∃ before t, onceLog = before ++ [t] ∧ ∃ events,
      (EventManager.handle printConfig EventManager.sampleEnv
        (EventManager.handleAll printConfig {}
          (EventManager.sampleArrivals (taken before))).1 t.event).2 = .printed events ∧
      Shows printConfig (sampleOf before ++ [t]) events := by
  have hlog : onceLog = onceLog.dropLast ++ onceLog.getLast (by decide) :: [] :=
    (List.dropLast_append_getLast _).symm
  have hright := calls_printed attached_print apart_tree rfl treeKey (fresh_empty treeFns) rfl
    callsOnce along_callsOnce hlog (EventManager.sampleArrivals (taken onceLog.dropLast)) rfl
    EventManager.sampleEnv
  obtain ⟨events, hout⟩ : ∃ events, (EventManager.handle printConfig EventManager.sampleEnv
      (EventManager.handleAll printConfig {}
        (EventManager.sampleArrivals (taken onceLog.dropLast))).1
      (onceLog.getLast (by decide)).event).2 = .printed events := ⟨_, by with_unfolding_all rfl⟩
  exact ⟨_, _, hlog, events, hout, (hright.sound events hout).2.2⟩

end GoFtrace.Tracing
