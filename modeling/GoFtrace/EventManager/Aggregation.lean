import GoFtrace.EventManager.Cases
import GoFtrace.EventManager.Invariant
import GoFtrace.Lib.Brackets
import Mathlib.Algebra.BigOperators.Group.Finset.Piecewise
import Mathlib.Algebra.BigOperators.Fin
import Mathlib.Data.Fintype.BigOperators

/-!
# Aggregated samples

Whether a sample is aggregated is decided event by event, against the observed stack; the
calls are recorded at the end, by a second pass with a stack of its own. The two agree: the
events of an accepted sample are nested brackets, and the calls are the pairs.

* `handle_accepted`: every sample that `AggregateStack` gets is recorded completely.
* `handleAll_aggregation`: the counters are the calls of the samples accepted since the
  process was last evicted.
-/

namespace GoFtrace.EventManager

open Lib Uprobe

/-! ## Brackets -/

/-- What an event does to the observed stack. -/
def Event.bracket (e : Event) : Token UInt64 :=
  if e.goftraceEvent.location = Bpf.entPoint then .opens e.goftraceEvent.ip
  else if e.goftraceEvent.location = Bpf.retPoint then .closes e.funcEntry
  else .skip

theorem Event.bracket_eq_opens {e : Event} {k : UInt64} (h : e.bracket = .opens k) :
    e.goftraceEvent.location = Bpf.entPoint ∧ e.goftraceEvent.ip = k := by
  unfold bracket at h
  split at h
  · rename_i hloc
    cases h
    exact ⟨hloc, rfl⟩
  · split at h <;> cases h

theorem Event.bracket_eq_closes {e : Event} {k : UInt64} (h : e.bracket = .closes k) :
    e.goftraceEvent.location ≠ Bpf.entPoint ∧ e.goftraceEvent.location = Bpf.retPoint ∧
      e.funcEntry = k := by
  unfold bracket at h
  split at h
  · cases h
  · split at h
    · rename_i hent hret
      cases h
      exact ⟨hent, hret, rfl⟩
    · cases h

theorem Event.bracket_eq_skip {e : Event} (h : e.bracket = .skip) :
    e.goftraceEvent.location ≠ Bpf.entPoint ∧ e.goftraceEvent.location ≠ Bpf.retPoint := by
  unfold bracket at h
  split at h
  · cases h
  · split at h
    · cases h
    · rename_i hent hret
      exact ⟨hent, hret⟩

/-- A repeated entry does what the entry did. -/
theorem bracket_of_isDuplicate {last : Event} {event : GoftraceEvent}
    (h : isDuplicate last event = true) :
    Event.bracket { last with goftraceEvent := event } = last.bracket := by
  simp only [isDuplicate, Bool.and_eq_true, beq_iff_eq] at h
  obtain ⟨⟨hloc, hip⟩, -⟩ := h
  simp only [Event.bracket, Event.funcEntry, hloc, hip]

/-! ## The observed stack -/

/-- The observed stack of a goroutine is what its events leave open, unless a return did
not match. -/
def View.Bracketed (cfg : Config) (v : View) : Prop :=
  cfg.aggregate = true → v.invalid = false → replay Event.bracket v.events [] = some v.stack

namespace View

variable {cfg : Config} {v : View}

theorem Bracketed.append (h : v.Bracketed cfg) (record : Event) :
    (v.append cfg record).Bracketed cfg := by
  intro ha hvalid
  unfold View.append observe at hvalid ⊢
  by_cases hent : record.goftraceEvent.location = Bpf.entPoint
  · rw [if_pos hent] at hvalid ⊢
    rw [replay_concat (h ha hvalid), Event.bracket, if_pos hent, apply_opens]
  · rw [if_neg hent] at hvalid ⊢
    by_cases hret : record.goftraceEvent.location = Bpf.retPoint
    · rw [if_pos hret] at hvalid ⊢
      cases hmis : returnMismatch cfg v.stack record.funcEntry with
      | true => simp [hmis] at hvalid
      | false =>
        simp only [hmis, Bool.false_eq_true, if_false] at hvalid ⊢
        have htop : v.stack.head? = some record.funcEntry := by
          simpa [returnMismatch, ha] using hmis
        obtain ⟨rest, hstack⟩ : ∃ rest, v.stack = record.funcEntry :: rest := by
          cases hs : v.stack with
          | nil => rw [hs] at htop; cases htop
          | cons top rest =>
            rw [hs] at htop
            exact ⟨rest, by rw [Option.some.inj htop]⟩
        rw [replay_concat (h ha hvalid), Event.bracket, if_neg hent, if_pos hret, hstack,
          apply_closes_cons, List.tail_cons]
    · rw [if_neg hret] at hvalid ⊢
      rw [replay_concat (h ha hvalid), Event.bracket, if_neg hent, if_neg hret, apply_skip]

theorem Bracketed.replace (h : v.Bracketed cfg) {last : Event} {event : GoftraceEvent}
    (hlast : v.events.getLast? = some last) (hdup : isDuplicate last event = true) :
    (v.replace last event).Bracketed cfg := by
  intro ha hvalid
  have hevents : v.events.dropLast ++ [last] = v.events :=
    List.dropLast_append_getLast? last hlast
  refine Eq.trans (replay_congr ?_ []) (h ha hvalid)
  rw [← hevents]
  simp [View.replace, bracket_of_isDuplicate hdup]

theorem stable_bracketed (cfg : Config) : Stable cfg (fun _ => True) (Bracketed cfg) where
  empty _ _ _ := rfl
  suppress _ _ _ h := h
  retain record v v' _ _ hret h := by
    cases hret with
    | append hfirst hdup => exact h.append record
    | replace hlast hdup => exact h.replace hlast hdup

end View

/-! ## The second pass -/

/-- The call of an entry event and the return event that closes it. -/
def callOf (p : Event × Event) : AggCall := p.2.call p.1.frame

theorem aggregateLoop_opens {e : Event} {k : UInt64} (h : e.bracket = .opens k)
    (es : List Event) (frames : List Frame) :
    aggregateLoop (e :: es) frames = aggregateLoop es (e.frame :: frames) := by
  rw [aggregateLoop.eq_def]
  dsimp only
  rw [if_pos (Event.bracket_eq_opens h).1]

theorem aggregateLoop_closes {e : Event} {f : Frame} (h : e.bracket = .closes f.entryIP)
    (es : List Event) (frames : List Frame) :
    aggregateLoop (e :: es) (f :: frames) =
      (e.call f :: (aggregateLoop es frames).1, (aggregateLoop es frames).2) := by
  obtain ⟨hent, hret, hfn⟩ := Event.bracket_eq_closes h
  rw [aggregateLoop.eq_def]
  dsimp only
  rw [if_neg hent, if_pos hret, if_neg (not_not.mpr hfn.symm)]

theorem aggregateLoop_skip {e : Event} (h : e.bracket = .skip) (es : List Event)
    (frames : List Frame) : aggregateLoop (e :: es) frames = aggregateLoop es frames := by
  obtain ⟨hent, hret⟩ := Event.bracket_eq_skip h
  rw [aggregateLoop.eq_def]
  dsimp only
  rw [if_neg hent, if_neg hret]

theorem aggregateLoop_flatten {f : Forest Event} (h : f.Matched Event.bracket)
    (es : List Event) (frames : List Frame) :
    aggregateLoop (f.flatten ++ es) frames =
      (f.pairs.map callOf ++ (aggregateLoop es frames).1, (aggregateLoop es frames).2) := by
  induction f generalizing es frames with
  | nil => rfl
  | node o kids c rest ihk ihr =>
    obtain ⟨⟨k, ho, hc⟩, hkids, hrest⟩ := h
    have hentry : o.frame.entryIP = k := (Event.bracket_eq_opens ho).2
    have hflat : (Forest.node o kids c rest).flatten ++ es =
        o :: (kids.flatten ++ (c :: (rest.flatten ++ es))) := by
      simp [Forest.flatten]
    rw [hflat, aggregateLoop_opens ho, ihk hkids,
      aggregateLoop_closes (by rw [hentry]; exact hc), ihr hrest]
    simp [Forest.pairs, callOf]

theorem aggregateLoop_filter (es : List Event) (frames : List Frame) :
    aggregateLoop (es.filter fun e => e.bracket ≠ .skip) frames = aggregateLoop es frames := by
  induction es generalizing frames with
  | nil => rfl
  | cons e es ih =>
    cases he : e.bracket with
    | skip => rw [List.filter_cons_of_neg (by simp [he]), ih, aggregateLoop_skip he]
    | opens k =>
      rw [List.filter_cons_of_pos (by simp [he]), aggregateLoop_opens he, ih,
        aggregateLoop_opens he]
    | closes k =>
      rw [List.filter_cons_of_pos (by simp [he]), aggregateLoop.eq_def, aggregateLoop.eq_def]
      simp only [ih]

/-! ## Accepted samples -/

/-- A sample recorded completely: its entries and returns are nested brackets, each pair is
one call, and each entry event is in one pair. -/
def Accepted (events : List Event) (calls : List AggCall) (mismatch : Bool) : Prop :=
  ∃ f : Forest Event, f.Matched Event.bracket ∧
    f.flatten = events.filter (fun e => e.bracket ≠ .skip) ∧
    calls = f.pairs.map callOf ∧ mismatch = false ∧
    (f.pairs.map Prod.fst).Perm (events.filter fun e => e.bracket.isOpening)

theorem accepted_of_replay {events : List Event}
    (h : replay Event.bracket events [] = some []) :
    Accepted events (aggregateLoop events []).1 (aggregateLoop events []).2 := by
  obtain ⟨f, hf, hflat⟩ := exists_forest_of_replay h
  have hloop := aggregateLoop_flatten hf [] []
  rw [List.append_nil, hflat, aggregateLoop_filter] at hloop
  have hopen : f.flatten.filter (fun e => e.bracket.isOpening) =
      events.filter fun e => e.bracket.isOpening := by
    rw [hflat, List.filter_filter]
    refine List.filter_congr fun e _ => ?_
    cases e.bracket <;> rfl
  refine ⟨f, hf, hflat, ?_, ?_, hopen ▸ f.pairs_perm hf⟩
  · rw [hloop]
    exact List.append_nil _
  · rw [hloop]
    rfl

/-- The stack of an aggregated sample is valid and empty. -/
theorem View.closing_aggregated {cfg : Config} {event : GoftraceEvent} {v : View}
    {events : List Event} {calls : List AggCall} {mismatch : Bool}
    (h : v.closing cfg event = .aggregated events calls mismatch) :
    cfg.aggregate = true ∧ v.invalid = false ∧ v.stack = [] ∧ events = v.events ∧
      calls = (aggregateLoop v.events []).1 ∧ mismatch = (aggregateLoop v.events []).2 := by
  unfold closing at h
  split at h
  · rename_i ha
    split at h
    · cases h
    · rename_i hopen
      cases h
      simp only [Bool.or_eq_true, Bool.not_eq_true', not_or, Bool.not_eq_true,
        Bool.not_eq_false, List.isEmpty_iff] at hopen
      exact ⟨ha, hopen.1, hopen.2, rfl, rfl, rfl⟩
  · split at h
    · cases h
    · split at h
      · split at h <;> cases h
      · cases h

/-- Every sample that `AggregateStack` gets is recorded completely. -/
theorem handle_accepted {cfg : Config} {m : EventManager}
    (hm : ∀ k, (m.view k).Bracketed cfg) (env : Env) (event : GoftraceEvent)
    {events : List Event} {calls : List AggCall} {mismatch : Bool}
    (h : (handle cfg env m event).2 = .aggregated events calls mismatch) :
    Accepted events calls mismatch := by
  have hstep := handle_step cfg env m event
  rw [h] at hstep
  generalize hout : Outcome.aggregated events calls mismatch = outcome at hstep
  generalize (handle cfg env m event).1.view event.key = v' at hstep
  cases hstep with
  | closed hprobe hret hclose =>
    obtain ⟨ha, hvalid, hstack, rfl, rfl, rfl⟩ := View.closing_aggregated hout.symm
    have hadm := (View.stable_bracketed cfg).admitted event (hm event.key)
    have hreplay := (View.stable_bracketed cfg).retain _ _ _ trivial
      (View.admitted_suppressed event) hret hadm ha hvalid
    rw [hstack] at hreplay
    exact accepted_of_replay hreplay
  | _ => cases hout

/-! ## Counters -/

/-- The weight that `recordAgg` gives a call. -/
def AggCall.counted (c : AggCall) : Nat := if c.weight = 0 then 1 else c.weight

/-- The calls of a latency bucket. -/
def inBucket (i : Fin latencySlots) (c : AggCall) : Bool := bucketOf c.elapsed = i

/-- The counters of a function are those of the calls. -/
structure Counts (agg : FuncAgg) (cs : List AggCall) : Prop where
  calls : agg.calls = cs.length
  weightedCalls : agg.weightedCalls = (cs.map AggCall.counted).sum
  latencies : ∀ i : Fin latencySlots, agg.latencies[i] = cs.countP (inBucket i)
  weightedLatencies : ∀ i : Fin latencySlots,
    agg.weightedLatencies[i] = ((cs.filter (inBucket i)).map AggCall.counted).sum
  retvals : FMap.total RetvalCount.weightedCount agg.retvals =
    ((cs.filter fun c => c.retval ≠ "").map AggCall.counted).sum

theorem counts_empty : Counts {} [] where
  calls := rfl
  weightedCalls := rfl
  latencies _ := Vector.getElem_replicate _
  weightedLatencies _ := Vector.getElem_replicate _
  retvals := rfl

theorem getElem_set_bucket (v : Vector Nat latencySlots) (i j : Fin latencySlots) (n : Nat) :
    (v.set i (v[i] + n))[j] = v[j] + if i = j then n else 0 := by
  by_cases hij : i = j
  · subst hij
    simp
  · have hne : i.val ≠ j.val := fun h => hij (Fin.ext h)
    simp [hij, Vector.getElem_set_ne _ _ hne]

/-- The weighted counts of a table of return values grow by the weight. -/
theorem total_recordRetval (order : MapOrder) (retval : String) {weight : Nat}
    (hw : weight ≠ 0) (retvals : FMap String RetvalCount) :
    FMap.total RetvalCount.weightedCount (recordRetval order retval weight retvals) =
      FMap.total RetvalCount.weightedCount retvals + weight := by
  have hcases := recordRetval_cases order retval weight retvals
  rw [if_neg hw] at hcases
  generalize recordRetval order retval weight retvals = retvals' at hcases ⊢
  cases hcases with
  | update hlook =>
    rw [FMap.total_insert, FMap.total_erase _ hlook]
    dsimp only
    omega
  | fresh hlook hroom =>
    rw [FMap.total_insert, FMap.erase_eq_self hlook]
    exact Nat.add_comm _ _
  | replace hlook _ hvalue _ =>
    rw [FMap.total_insert, FMap.erase_eq_self (lookup_erase_of_none _ hlook),
      FMap.total_erase _ hvalue]
    dsimp only
    omega

theorem record_latencies (agg : FuncAgg) (order : MapOrder) (c : AggCall)
    (j : Fin latencySlots) : (agg.record order c).latencies[j] =
      agg.latencies[j] + if bucketOf c.elapsed = j then 1 else 0 :=
  getElem_set_bucket agg.latencies (bucketOf c.elapsed) j 1

theorem record_weightedLatencies (agg : FuncAgg) (order : MapOrder) (c : AggCall)
    (j : Fin latencySlots) : (agg.record order c).weightedLatencies[j] =
      agg.weightedLatencies[j] + if bucketOf c.elapsed = j then c.counted else 0 :=
  getElem_set_bucket agg.weightedLatencies (bucketOf c.elapsed) j c.counted

theorem record_retvals (agg : FuncAgg) (order : MapOrder) (c : AggCall) :
    (agg.record order c).retvals =
      if c.retval ≠ "" then recordRetval order c.retval c.counted agg.retvals
      else agg.retvals := rfl

/-- One more call in the counters is one more call in the list. -/
theorem Counts.record {agg : FuncAgg} {cs : List AggCall} (h : Counts agg cs)
    (order : MapOrder) (c : AggCall) : Counts (agg.record order c) (cs ++ [c]) where
  calls := by
    simp [FuncAgg.record, h.calls]
  weightedCalls := by
    simp [FuncAgg.record, h.weightedCalls, AggCall.counted]
  latencies i := by
    rw [List.countP_append, List.countP_singleton, ← h.latencies i, record_latencies]
    simp [inBucket]
  weightedLatencies i := by
    rw [List.filter_append, List.map_append, List.sum_append, ← h.weightedLatencies i,
      record_weightedLatencies]
    by_cases hi : bucketOf c.elapsed = i <;> simp [inBucket, hi]
  retvals := by
    have hw : c.counted ≠ 0 := by
      unfold AggCall.counted
      split <;> omega
    rw [List.filter_append, List.map_append, List.sum_append, ← h.retvals, record_retvals]
    by_cases hr : c.retval = ""
    · simp [hr]
    · rw [if_pos hr, total_recordRetval order c.retval hw]
      simp [hr]

/-- Every call is in one bucket. -/
theorem sum_inBucket (cs : List AggCall) :
    ∑ i : Fin latencySlots, cs.countP (inBucket i) = cs.length := by
  induction cs with
  | nil => simp
  | cons c cs ih => simp [List.countP_cons, Finset.sum_add_distrib, ih, inBucket]

theorem sum_weighted_inBucket (cs : List AggCall) :
    ∑ i : Fin latencySlots, ((cs.filter (inBucket i)).map AggCall.counted).sum =
      (cs.map AggCall.counted).sum := by
  induction cs with
  | nil => simp
  | cons c cs ih =>
    have hsplit : ∀ i : Fin latencySlots,
        (((c :: cs).filter (inBucket i)).map AggCall.counted).sum =
          (if bucketOf c.elapsed = i then c.counted else 0) +
            ((cs.filter (inBucket i)).map AggCall.counted).sum := by
      intro i
      by_cases hi : bucketOf c.elapsed = i <;> simp [inBucket, hi]
    simp only [hsplit, Finset.sum_add_distrib, ih, Finset.sum_ite_eq, Finset.mem_univ, if_true,
      List.map_cons, List.sum_cons]

theorem Counts.calls_eq_sum {agg : FuncAgg} {cs : List AggCall} (h : Counts agg cs) :
    agg.calls = ∑ i : Fin latencySlots, agg.latencies[i] := by
  simp only [h.calls, h.latencies, sum_inBucket]

theorem Counts.weightedCalls_eq_sum {agg : FuncAgg} {cs : List AggCall} (h : Counts agg cs) :
    agg.weightedCalls = ∑ i : Fin latencySlots, agg.weightedLatencies[i] := by
  simp only [h.weightedCalls, h.weightedLatencies, sum_weighted_inBucket]

/-! ## The counters of a process -/

/-- The calls that `recordAgg` got for an event. -/
def Outcome.calls : Outcome → List AggCall
  | .aggregated _ calls _ => calls
  | _ => []

/-- The counters of every function of a table are those of its calls. -/
def TableCounts (agg : FMap String FuncAgg) (cs : List AggCall) : Prop :=
  ∀ fn, Counts (FMap.get agg {} fn) (cs.filter fun c => c.funcname = fn)

theorem tableCounts_empty : TableCounts ∅ [] := fun _ => counts_empty

theorem TableCounts.recordAgg {agg : FMap String FuncAgg} {cs : List AggCall}
    (h : TableCounts agg cs) (order : MapOrder) (c : AggCall) :
    TableCounts (recordAgg order agg c) (cs ++ [c]) := by
  intro fn
  rw [List.filter_append]
  by_cases hfn : fn = c.funcname
  · subst hfn
    rw [EventManager.recordAgg, FMap.get_insert_self]
    simpa using (h c.funcname).record order c
  · rw [EventManager.recordAgg, FMap.get_insert_of_ne _ _ _ hfn]
    simpa [Ne.symm hfn] using h fn

theorem TableCounts.foldl {agg : FMap String FuncAgg} {cs : List AggCall}
    (h : TableCounts agg cs) (order : MapOrder) (calls : List AggCall) :
    TableCounts (calls.foldl (EventManager.recordAgg order) agg) (cs ++ calls) := by
  induction calls generalizing agg cs with
  | nil => simpa using h
  | cons c calls ih =>
    have hnext := ih (h.recordAgg order c)
    rwa [List.append_assoc] at hnext

theorem PidState.agg_updateObservedStack (cfg : Config) (s : PidState)
    (event : GoftraceEvent) (probe : Uprobe) :
    (updateObservedStack cfg s event probe).agg = s.agg := by
  unfold updateObservedStack
  split
  · rfl
  · split
    · dsimp only
      split
      · rfl
      · split <;> rfl
    · rfl

theorem agg_dropStack (cfg : Config) (m : EventManager) (k : TraceKey) :
    ((dropStack cfg m k).process k.pid).agg = (m.process k.pid).agg := by
  rw [dropStack_process]
  rfl

theorem agg_pidState (cfg : Config) (m : EventManager) (pid : UInt32) :
    ((m.pidState cfg pid).process pid).agg = (m.process pid).agg := by
  rw [pidState_process]

theorem agg_appendEvent (cfg : Config) (env : Env) (m : EventManager) (event : GoftraceEvent)
    (probe : Uprobe) :
    ((appendEvent cfg env m event probe).process event.pid).agg = (m.process event.pid).agg := by
  obtain ⟨l, r, happend⟩ := appendEvent_eq cfg env m event probe
  rw [happend, process_setProcess, PidState.agg_updateObservedStack]
  rfl

/-- Nothing but the recording of calls changes the counters of the process of an event. -/
theorem uncounted_agg (cfg : Config) (env : Env) (event : GoftraceEvent)
    (agg : FMap String FuncAgg) :
    Uncounted cfg env event fun m => (m.process event.pid).agg = agg where
  drop m h := (agg_dropStack cfg m event.key).trans h
  count _ _ _ _ _ h := h
  unsuppress _ h := h
  suppress _ h := h
  pidState m h := (agg_pidState cfg m event.pid).trans h
  retain m probe _ _ h := by
    have happend := (agg_appendEvent cfg env m event probe).trans h
    unfold retain
    dsimp only
    split
    · split
      · exact h
      · split
        · exact h
        · exact happend
    · split
      · rw [process_setProcess]
        exact h
      · exact happend

theorem agg_closeAggregate (cfg : Config) (env : Env) (m : EventManager) (k : TraceKey) :
    ((closeAggregate cfg env m k).1.process k.pid).agg =
      (closeAggregate cfg env m k).2.calls.foldl (recordAgg env.order) (m.process k.pid).agg := by
  unfold closeAggregate
  dsimp only
  split
  · exact agg_pidState cfg m k.pid
  · unfold aggregateStack
    dsimp only
    rw [process_setProcess, PidState.recordAll, Outcome.calls, agg_pidState, agg_pidState]

theorem agg_closePrint (cfg : Config) (m : EventManager) (event : GoftraceEvent) :
    ((closePrint cfg m event).1.process event.pid).agg = (m.process event.pid).agg ∧
      (closePrint cfg m event).2.calls = [] := by
  have hseen := agg_pidState cfg m event.pid
  unfold closePrint
  split
  · exact ⟨hseen, rfl⟩
  · split
    · split
      · exact ⟨hseen, rfl⟩
      · exact ⟨rfl, rfl⟩
    · exact ⟨rfl, rfl⟩

theorem agg_closeStack (cfg : Config) (env : Env) (m : EventManager) (event : GoftraceEvent) :
    ((closeStack cfg env m event).1.process event.pid).agg =
      (closeStack cfg env m event).2.calls.foldl (recordAgg env.order)
        (m.process event.pid).agg := by
  have hseen := agg_pidState cfg m event.pid
  have hdrop : ∀ m : EventManager, ((dropStack cfg m event.key).process event.pid).agg =
      (m.process event.pid).agg := fun m => agg_dropStack cfg m event.key
  unfold closeStack
  dsimp only
  split
  · exact hseen
  · rw [hdrop]
    cases cfg.aggregate with
    | true =>
      rw [if_pos rfl]
      exact (agg_closeAggregate cfg env _ event.key).trans (by rw [← hseen]; rfl)
    | false =>
      obtain ⟨hagg, hcalls⟩ := agg_closePrint cfg (m.pidState cfg event.pid) event
      rw [if_neg Bool.false_ne_true, hagg, hcalls]
      exact hseen

/-- The counters of the process of an event, after it is handled. -/
theorem handle_agg (cfg : Config) (env : Env) (m : EventManager) (event : GoftraceEvent) :
    ((handle cfg env m event).1.process event.pid).agg =
      (handle cfg env m event).2.calls.foldl (recordAgg env.order)
        (m.process event.pid).agg := by
  have hagg := uncounted_agg cfg env event (m.process event.pid).agg
  have hexit := hagg.drop _ (hagg.unsuppress m rfl)
  unfold handle
  split
  · exact hexit
  · split
    · exact hexit
    · have hadd := hagg.add rfl
      generalize add cfg env m event = r at hadd ⊢
      obtain ⟨m', ok⟩ := r
      dsimp only at hadd ⊢
      split
      · exact hadd
      · rw [agg_closeStack, hadd]

/-- The counters of another process are kept with the process. -/
theorem handle_agg_of_ne (cfg : Config) (env : Env) (m : EventManager) {event : GoftraceEvent}
    {pid : UInt32} (hne : pid ≠ event.pid) (hp : pid ∈ (handle cfg env m event).1.pids) :
    ((handle cfg env m event).1.process pid).agg = (m.process pid).agg := by
  obtain ⟨m₁, m₂, hfirst, haction, hlast⟩ := handle_local cfg env m event
  rw [hlast.process pid hne, ← hfirst.process pid hne]
  rw [hlast.pids pid hne] at hp
  cases haction with
  | none => rfl
  | overBudget _ clear => rfl
  | evict hv =>
    rename_i v
    have hpv : pid ≠ v.1 := by
      rintro rfl
      simp [removeProcess] at hp
    exact congrArg PidState.agg (FMap.get_erase_of_ne m₁.pids {} hpv)

/-! ## Every run -/

/-- The calls recorded for a process since it was seen first, or first again after its
eviction. -/
def recordedSince (cfg : Config) (pid : UInt32) : EventManager → List AggCall →
    List (GoftraceEvent × Env) → List AggCall
  | _, cs, [] => cs
  | m, cs, (event, env) :: arrivals =>
    let (m', outcome) := handle cfg env m event
    let cs := if event.pid = pid then cs ++ outcome.calls else cs
    recordedSince cfg pid m' (if pid ∈ m'.pids then cs else []) arrivals

theorem tableCounts_handle (cfg : Config) (env : Env) (m : EventManager) (event : GoftraceEvent)
    {pid : UInt32} {cs : List AggCall} (h : TableCounts (m.process pid).agg cs) :
    TableCounts ((handle cfg env m event).1.process pid).agg
      (if pid ∈ (handle cfg env m event).1.pids then
        if event.pid = pid then cs ++ (handle cfg env m event).2.calls else cs
      else []) := by
  by_cases hp : pid ∈ (handle cfg env m event).1.pids
  · rw [if_pos hp]
    by_cases hpid : event.pid = pid
    · subst hpid
      rw [if_pos rfl, handle_agg]
      exact h.foldl env.order _
    · rw [if_neg hpid, handle_agg_of_ne cfg env m (Ne.symm hpid) hp]
      exact h
  · rw [if_neg hp, process_eq_default (AList.lookup_eq_none.mpr hp)]
    exact tableCounts_empty

theorem tableCounts_handleAll (cfg : Config) (pid : UInt32) (arrivals : List (GoftraceEvent × Env))
    {m : EventManager} {cs : List AggCall} (h : TableCounts (m.process pid).agg cs) :
    TableCounts ((handleAll cfg m arrivals).1.process pid).agg
      (recordedSince cfg pid m cs arrivals) := by
  induction arrivals generalizing m cs with
  | nil => exact h
  | cons arrival arrivals ih => exact ih (tableCounts_handle cfg arrival.2 m arrival.1 h)

/-- In every run each sample that `AggregateStack` gets is recorded completely, and the
counters of a process are those of the calls recorded since it was last evicted. -/
theorem handleAll_aggregation (cfg : Config) (arrivals : List (GoftraceEvent × Env)) :
    (∀ env event events calls mismatch,
      (handle cfg env (handleAll cfg {} arrivals).1 event).2 =
        .aggregated events calls mismatch → Accepted events calls mismatch) ∧
    ∀ pid fn,
      Counts (FMap.get ((handleAll cfg {} arrivals).1.process pid).agg {} fn)
        ((recordedSince cfg pid {} [] arrivals).filter fun c => c.funcname = fn) ∧
      (FMap.get ((handleAll cfg {} arrivals).1.process pid).agg {} fn).calls =
        ∑ i : Fin latencySlots,
          (FMap.get ((handleAll cfg {} arrivals).1.process pid).agg {} fn).latencies[i] ∧
      (FMap.get ((handleAll cfg {} arrivals).1.process pid).agg {} fn).weightedCalls =
        ∑ i : Fin latencySlots,
          (FMap.get ((handleAll cfg {} arrivals).1.process pid).agg {} fn).weightedLatencies[i] := by
  have hbrackets : ∀ k, ((handleAll cfg {} arrivals).1.view k).Bracketed cfg :=
    handleAll_induction
      (fun env m event hm => (View.stable_bracketed cfg).handle env m trivial hm) arrivals
      fun _ _ _ => rfl
  have htable := fun pid => tableCounts_handleAll cfg pid arrivals (m := {}) tableCounts_empty
  refine ⟨fun env event events calls mismatch => handle_accepted hbrackets env event,
    fun pid fn => ?_⟩
  have hcounts := htable pid fn
  exact ⟨hcounts, hcounts.calls_eq_sum, hcounts.weightedCalls_eq_sum⟩

/-! ## Evicted counters -/

/-- All calls recorded for a process, whether it was evicted since or not. -/
def recordedEver (cfg : Config) (pid : UInt32) : EventManager → List (GoftraceEvent × Env) →
    List AggCall
  | _, [] => []
  | m, (event, env) :: arrivals =>
    let (m', outcome) := handle cfg env m event
    (if event.pid = pid then outcome.calls else []) ++ recordedEver cfg pid m' arrivals

/-- A sample of process 0, the starts of samples of 64 other processes, and one more sample
of process 0. -/
def sampleEviction : List (GoftraceEvent × Env) :=
  sampleArrivals ([sampleStart 0, sampleEnd 0] ++
    (List.range 64).map (fun i => sampleStart (UInt32.ofNat (i + 1))) ++
    [sampleStart 0, sampleEnd 0])

/-- The first sample of process 0 is forgotten with the process. -/
theorem evicted_counts :
    ¬ Counts (FMap.get ((handleAll (sampleConfig true) {} sampleEviction).1.process 0).agg {} "R")
      ((recordedEver (sampleConfig true) 0 {} sampleEviction).filter
        fun c => c.funcname = "R") := by
  intro h
  have hlost : (FMap.get ((handleAll (sampleConfig true) {} sampleEviction).1.process 0).agg {}
      "R").calls ≠ ((recordedEver (sampleConfig true) 0 {} sampleEviction).filter
        fun c => c.funcname = "R").length := by
    decide +kernel
  exact hlost h.calls

end GoFtrace.EventManager
