import GoFtrace.EventManager.State

/-!
# Aggregation

`AggregateStack` of `internal/eventmanager/handler.go`: the retained events of a goroutine
are paired into calls, and each call is recorded in the counters of its function.
-/

namespace GoFtrace.EventManager

open Lib Uprobe

/-! ## Recording -/

/-- The order in which `range` yields the entries of a table of return values. -/
structure MapOrder where
  apply : List (String × RetvalCount) → List (String × RetvalCount)
  perm : ∀ l, (apply l).Perm l

/-- The search of `recordRetval` for the entry with the smallest weighted count. -/
def minimumOf : Option (String × RetvalCount) → List (String × RetvalCount) →
    Option (String × RetvalCount)
  | best, [] => best
  | none, c :: cs => minimumOf (some c) cs
  | some b, c :: cs =>
    minimumOf (if c.2.weightedCount < b.2.weightedCount then some c else some b) cs

/-- `recordRetval`. -/
def recordRetval (order : MapOrder) (retval : String) (weight : Nat)
    (retvals : FMap String RetvalCount) : FMap String RetvalCount :=
  let weight := if weight = 0 then 1 else weight
  match retvals.lookup retval with
  | some current =>
    retvals.insert retval { current with
      count := current.count + 1
      weightedCount := current.weightedCount + weight }
  | none =>
    if FMap.size retvals < maxAggregateRetvals then
      retvals.insert retval { count := 1, weightedCount := weight }
    else
      match minimumOf none (order.apply (retvals.entries.map fun e => (e.1, e.2))) with
      | none => retvals.insert retval { count := 1, weightedCount := weight }
      | some (value, minimum) =>
        (retvals.erase value).insert retval
          { count := 1
            weightedCount := minimum.weightedCount + weight
            weightedError := minimum.weightedCount }

theorem minimumOf_some_mem {best v : String × RetvalCount} {cs : List (String × RetvalCount)}
    (h : minimumOf (some best) cs = some v) : v = best ∨ v ∈ cs := by
  induction cs generalizing best with
  | nil =>
    cases h
    exact .inl rfl
  | cons c cs ih =>
    rw [minimumOf] at h
    split at h
    · rcases ih h with hv | hv
      · exact .inr (hv ▸ List.mem_cons_self)
      · exact .inr (List.mem_cons_of_mem _ hv)
    · rcases ih h with hv | hv
      · exact .inl hv
      · exact .inr (List.mem_cons_of_mem _ hv)

theorem minimumOf_mem {v : String × RetvalCount} {cs : List (String × RetvalCount)}
    (h : minimumOf none cs = some v) : v ∈ cs := by
  cases cs with
  | nil => cases h
  | cons c cs =>
    have hcase : v = c ∨ v ∈ cs := minimumOf_some_mem h
    rcases hcase with hv | hv
    · exact hv ▸ List.mem_cons_self
    · exact List.mem_cons_of_mem _ hv

theorem minimumOf_isSome {best : String × RetvalCount} {cs : List (String × RetvalCount)} :
    (minimumOf (some best) cs).isSome := by
  induction cs generalizing best with
  | nil => rfl
  | cons c cs ih =>
    rw [minimumOf]
    split <;> exact ih

theorem minimumOf_some_le {best v : String × RetvalCount} {cs : List (String × RetvalCount)}
    (h : minimumOf (some best) cs = some v) :
    v.2.weightedCount ≤ best.2.weightedCount ∧ ∀ c ∈ cs, v.2.weightedCount ≤ c.2.weightedCount := by
  induction cs generalizing best with
  | nil =>
    cases h
    exact ⟨Nat.le_refl _, fun _ hc => absurd hc List.not_mem_nil⟩
  | cons c cs ih =>
    rw [minimumOf] at h
    split at h
    · rename_i hlt
      obtain ⟨hle, hall⟩ := ih h
      exact ⟨Nat.le_trans hle (Nat.le_of_lt hlt), List.forall_mem_cons.mpr ⟨hle, hall⟩⟩
    · rename_i hge
      obtain ⟨hle, hall⟩ := ih h
      exact ⟨hle, List.forall_mem_cons.mpr ⟨Nat.le_trans hle (Nat.le_of_not_lt hge), hall⟩⟩

/-- The entry found is one of the smallest. -/
theorem minimumOf_le {v : String × RetvalCount} {cs : List (String × RetvalCount)}
    (h : minimumOf none cs = some v) : ∀ c ∈ cs, v.2.weightedCount ≤ c.2.weightedCount := by
  cases cs with
  | nil => cases h
  | cons c cs =>
    exact List.forall_mem_cons.mpr (minimumOf_some_le h)

theorem lookup_erase_of_none {retvals : FMap String RetvalCount} {retval : String}
    (value : String) (h : retvals.lookup retval = none) :
    (retvals.erase value).lookup retval = none := by
  rw [AList.lookup_eq_none, AList.mem_erase]
  exact fun hr => AList.lookup_eq_none.mp h hr.2

/-- What `recordRetval` does to the table: it counts a value that is present, adds one while
there is room, or puts the new value in the place of another. -/
inductive Recorded (retval : String) (weight : Nat) (retvals : FMap String RetvalCount) :
    FMap String RetvalCount → Prop
  | update {current : RetvalCount} (hlook : retvals.lookup retval = some current) :
      Recorded retval weight retvals
        (retvals.insert retval { current with
          count := current.count + 1
          weightedCount := current.weightedCount + weight })
  | fresh (hlook : retvals.lookup retval = none) (hroom : FMap.size retvals < maxAggregateRetvals) :
      Recorded retval weight retvals
        (retvals.insert retval { count := 1, weightedCount := weight })
  | replace {value : String} {minimum : RetvalCount} (hlook : retvals.lookup retval = none)
      (hfull : maxAggregateRetvals ≤ FMap.size retvals)
      (hvalue : retvals.lookup value = some minimum)
      (hmin : ∀ v c, retvals.lookup v = some c → minimum.weightedCount ≤ c.weightedCount) :
      Recorded retval weight retvals
        ((retvals.erase value).insert retval
          { count := 1
            weightedCount := minimum.weightedCount + weight
            weightedError := minimum.weightedCount })

theorem recordRetval_cases (order : MapOrder) (retval : String) (weight : Nat)
    (retvals : FMap String RetvalCount) :
    Recorded retval (if weight = 0 then 1 else weight) retvals
      (recordRetval order retval weight retvals) := by
  unfold recordRetval
  cases hlook : retvals.lookup retval with
  | some current => exact .update hlook
  | none =>
    dsimp only
    by_cases hroom : FMap.size retvals < maxAggregateRetvals
    · rw [if_pos hroom]
      exact .fresh hlook hroom
    · rw [if_neg hroom]
      have hperm := order.perm (retvals.entries.map fun e => (e.1, e.2))
      have hlen : (order.apply (retvals.entries.map fun e => (e.1, e.2))).length =
          FMap.size retvals := by
        rw [hperm.length_eq, List.length_map]
        rfl
      cases hmin : minimumOf none (order.apply (retvals.entries.map fun e => (e.1, e.2))) with
      | none =>
        -- a full table has an entry, so the search finds one
        cases hl : order.apply (retvals.entries.map fun e => (e.1, e.2)) with
        | nil =>
          rw [hl] at hlen
          have hzero : FMap.size retvals = 0 := hlen.symm
          rw [hzero] at hroom
          exact absurd (by decide : 0 < maxAggregateRetvals) hroom
        | cons c cs =>
          rw [hl, minimumOf] at hmin
          have hsome : (minimumOf (some c) cs).isSome := minimumOf_isSome
          rw [hmin] at hsome
          cases hsome
      | some best =>
        obtain ⟨value, minimum⟩ := best
        have hmem := hperm.mem_iff.mp (minimumOf_mem hmin)
        obtain ⟨e, he, heq⟩ := List.mem_map.mp hmem
        obtain ⟨rfl, rfl⟩ := Prod.mk.inj heq
        refine .replace hlook (Nat.le_of_not_lt hroom) (AList.mem_lookup_iff.mpr he)
          fun v c hv => ?_
        exact minimumOf_le hmin (v, c) (hperm.mem_iff.mpr
          (List.mem_map.mpr ⟨⟨v, c⟩, AList.mem_lookup_iff.mp hv, rfl⟩))

/-- The bucket of a latency; the last one is the overflow bucket. -/
def bucketOf (elapsed : Int) : Fin latencySlots :=
  ⟨latencyEdges.findIdx fun edge => decide (elapsed ≤ edge), by
    have h : latencyEdges.findIdx (fun edge => decide (elapsed ≤ edge)) ≤ latencyEdges.length :=
      List.findIdx_le_length
    exact Nat.lt_succ_of_le h⟩

/-- One call of `recordAgg`. -/
structure AggCall where
  funcname : String
  /-- A `time.Duration`. -/
  elapsed : Int
  retval : String
  weight : Nat
  deriving DecidableEq, Repr

/-- The counters of one function after a call. -/
def FuncAgg.record (order : MapOrder) (agg : FuncAgg) (call : AggCall) : FuncAgg :=
  let weight := if call.weight = 0 then 1 else call.weight
  let idx := bucketOf call.elapsed
  { calls := agg.calls + 1
    weightedCalls := agg.weightedCalls + weight
    latencies := agg.latencies.set idx (agg.latencies[idx] + 1)
    weightedLatencies := agg.weightedLatencies.set idx (agg.weightedLatencies[idx] + weight)
    retvals :=
      if call.retval ≠ "" then recordRetval order call.retval weight agg.retvals
      else agg.retvals }

/-- `recordAgg`. -/
def recordAgg (order : MapOrder) (agg : FMap String FuncAgg) (call : AggCall) :
    FMap String FuncAgg :=
  agg.insert call.funcname ((FMap.get agg {} call.funcname).record order call)

/-! ## Pairing -/

/-- `frame` of `AggregateStack`. -/
structure Frame where
  entryIP : UInt64
  start : UInt64
  weight : Nat
  deriving DecidableEq, Repr

/-- The frame of an entry event. -/
def Event.frame (e : Event) : Frame :=
  let weight := e.goftraceEvent.sampleDenominator.toNat
  { entryIP := e.goftraceEvent.ip, start := e.goftraceEvent.timeNs,
    weight := if weight = 0 then 1 else weight }

/-- `time.Duration(t - start)`. -/
def elapsedSince (start t : UInt64) : Int := (t - start).toBitVec.toInt

/-- The call that a return event closes. -/
def Event.call (e : Event) (f : Frame) : AggCall :=
  { funcname := e.uprobe.funcname, elapsed := elapsedSince f.start e.goftraceEvent.timeNs,
    retval := e.argString, weight := f.weight }

/-- The loop of `AggregateStack`: the calls recorded, in order, and whether the loop was
left at a return that does not match. -/
def aggregateLoop : List Event → List Frame → List AggCall × Bool
  | [], _ => ([], false)
  | e :: es, frames =>
    if e.goftraceEvent.location = Bpf.entPoint then aggregateLoop es (e.frame :: frames)
    else if e.goftraceEvent.location = Bpf.retPoint then
      match frames with
      | [] => ([], true)
      | current :: frames =>
        if current.entryIP ≠ e.funcEntry then ([], true)
        else
          let (calls, mismatch) := aggregateLoop es frames
          (e.call current :: calls, mismatch)
    else aggregateLoop es frames

/-- The counters of a process after some calls. -/
def PidState.recordAll (order : MapOrder) (s : PidState) (calls : List AggCall) : PidState :=
  { s with agg := calls.foldl (recordAgg order) s.agg }

end GoFtrace.EventManager
