import GoFtrace.EventManager.OwnArgs
import GoFtrace.EventManager.Summary

/-!
# Estimates

With adaptive sampling off every sample keeps the denominator 1. Then what
`PrintAggregateSummary` prints as estimated is what it prints as counted.

* `aggregateLoop_single`: entries of denominator 1 close calls of weight 1.
* `unscaled_handleAll`: the summary of a run of such entries.
-/

namespace GoFtrace.EventManager

open Lib SpaceSaving

/-! ## Calls of weight 1 -/

/-- An event that gives no call a weight above 1. -/
def Single (event : GoftraceEvent) : Prop :=
  event.location = Bpf.entPoint → event.sampleDenominator.toNat ≤ 1

theorem frame_single {e : Event} (h : Single e.goftraceEvent)
    (hloc : e.goftraceEvent.location = Bpf.entPoint) : e.frame.weight = 1 := by
  have hle := h hloc
  unfold Event.frame
  dsimp only
  split <;> omega

theorem aggregateLoop_single {es : List Event} {frames : List Frame}
    (hes : ∀ e ∈ es, Single e.goftraceEvent) (hframes : ∀ f ∈ frames, f.weight = 1) :
    ∀ c ∈ (aggregateLoop es frames).1, c.counted = 1 := by
  induction es, frames using aggregateLoop.induct with
  | case1 frames => exact List.forall_mem_nil _
  | case2 e es frames hent ih =>
    obtain ⟨he, hrest⟩ := List.forall_mem_cons.mp hes
    rw [aggregateLoop.eq_def]
    dsimp only
    rw [if_pos hent]
    exact ih hrest (List.forall_mem_cons.mpr ⟨frame_single he hent, hframes⟩)
  | case3 e es hent hret =>
    rw [aggregateLoop, if_neg hent, if_pos hret]
    exact List.forall_mem_nil _
  | case4 e es hent hret current frames hentry =>
    rw [aggregateLoop, if_neg hent, if_pos hret]
    dsimp only
    rw [if_pos hentry]
    exact List.forall_mem_nil _
  | case5 e es hent hret current frames hentry calls mismatch heq ih =>
    obtain ⟨hcurrent, hframes⟩ := List.forall_mem_cons.mp hframes
    have hcalls := ih (fun e' he' => hes e' (List.mem_cons_of_mem e he')) hframes
    rw [aggregateLoop, if_neg hent, if_pos hret]
    dsimp only
    rw [if_neg hentry]
    refine List.forall_mem_cons.mpr ⟨?_, hcalls⟩
    have hweight : (e.call current).weight = 1 := hcurrent
    rw [AggCall.counted, hweight]
    rfl
  | case6 e es frames hent hret ih =>
    rw [aggregateLoop.eq_def]
    dsimp only
    rw [if_neg hent, if_neg hret]
    exact ih (fun e' he' => hes e' (List.mem_cons_of_mem e he')) hframes

/-! ## Every run -/

section
variable {cfg : Config}

theorem stable_single (cfg : Config) :
    Stable cfg Single fun v => ∀ r ∈ v.events, Single r.goftraceEvent where
  empty _ _ hr := by cases hr
  suppress _ _ _ hv := hv
  retain record v v' hrecord _ hret hv := by
    cases hret with
    | append => exact View.append_records hv hrecord
    | replace hlast hdup =>
      refine List.forall_mem_append.mpr ⟨fun r hr => hv r (List.mem_of_mem_dropLast hr), ?_⟩
      exact List.forall_mem_singleton.mpr hrecord

/-- The calls that one event records have the weight 1. -/
theorem calls_single {env : Env} {m : EventManager} {event : GoftraceEvent} (hevent : Single event)
    (hm : ∀ k, ∀ r ∈ (m.view k).events, Single r.goftraceEvent) :
    ∀ c ∈ (handle cfg env m event).2.calls, c.counted = 1 := by
  have hstep := handle_step cfg env m event
  generalize (handle cfg env m event).1.view event.key = v at hstep
  generalize (handle cfg env m event).2 = outcome at hstep ⊢
  cases hstep with
  | closed hprobe hret hclose =>
    rename_i v'
    have hevents := (stable_single cfg).retain _ _ _ hevent (View.admitted_suppressed event) hret
      ((stable_single cfg).admitted event (hm event.key))
    intro c hc
    cases hout : v'.closing cfg event with
    | aggregated events calls mismatch =>
      rw [hout] at hc
      obtain ⟨-, -, -, -, hcalls, -⟩ := View.closing_aggregated hout
      change c ∈ calls at hc
      rw [hcalls] at hc
      exact aggregateLoop_single hevents (List.forall_mem_nil _) c hc
    | _ =>
      rw [hout] at hc
      cases hc
  | _ =>
    intro c hc
    cases hc

/-- Only calls of weight 1 are recorded in a run of such events. -/
theorem recordedSince_single (pid : UInt32) (arrivals : List (GoftraceEvent × Env))
    (h : ∀ a ∈ arrivals, Single a.1) {m : EventManager} {cs : List AggCall}
    (hm : ∀ k, ∀ r ∈ (m.view k).events, Single r.goftraceEvent)
    (hcs : ∀ c ∈ cs, c.counted = 1) :
    ∀ c ∈ recordedSince cfg pid m cs arrivals, c.counted = 1 := by
  induction arrivals generalizing m cs with
  | nil => exact hcs
  | cons arrival arrivals ih =>
    obtain ⟨event, env⟩ := arrival
    obtain ⟨hevent, hrest⟩ := List.forall_mem_cons.mp h
    have hcalls := @calls_single cfg env m event hevent hm
    unfold recordedSince
    dsimp only
    apply ih hrest ((stable_single cfg).handle env m hevent hm)
    split
    · split
      · exact List.forall_mem_append.mpr ⟨hcs, hcalls⟩
      · exact hcs
    · exact List.forall_mem_nil _

end

/-! ## The summary -/

/-- The estimates of a function are its counts. A return value that took the place of others is
printed with what it inherited from them as its error. -/
structure Unscaled (s : FuncSummary) : Prop where
  calls : s.weightedCalls = s.calls
  latencies : ∀ p ∈ s.latencies, p.2 = p.1
  top : ∀ x ∈ s.top, x.2.weightedCount = x.2.count + x.2.weightedError

/-- The weights of a table of return values are its counts. -/
def Counted (retvals : FMap String RetvalCount) : Prop :=
  ∀ v r, retvals.lookup v = some r → r.weightedCount = r.count + r.weightedError

theorem counted_recordRetval (order : MapOrder) (retval : String)
    {retvals : FMap String RetvalCount} (h : Counted retvals) :
    Counted (recordRetval order retval 1 retvals) := by
  have hcases := recordRetval_cases order retval 1 retvals
  rw [if_neg Nat.one_ne_zero] at hcases
  generalize recordRetval order retval 1 retvals = retvals' at hcases ⊢
  intro v r hv
  by_cases hsame : v = retval
  · subst hsame
    cases hcases with
    | update hlook =>
      rw [AList.lookup_insert] at hv
      cases hv
      have hold := h v _ hlook
      dsimp only
      omega
    | fresh hlook hroom =>
      rw [AList.lookup_insert] at hv
      cases hv
      rfl
    | replace hlook hfull hvalue hmin =>
      rw [AList.lookup_insert] at hv
      cases hv
      exact Nat.add_comm _ _
  · cases hcases with
    | update hlook =>
      rw [AList.lookup_insert_ne hsame] at hv
      exact h v r hv
    | fresh hlook hroom =>
      rw [AList.lookup_insert_ne hsame] at hv
      exact h v r hv
    | @replace value minimum hlook hfull hvalue hmin =>
      rw [AList.lookup_insert_ne hsame] at hv
      by_cases hout : v = value
      · rw [hout, AList.lookup_erase] at hv
        cases hv
      · rw [AList.lookup_erase_ne hout] at hv
        exact h v r hv

theorem counted_record {agg : FuncAgg} {c : AggCall} (hc : c.counted = 1) (order : MapOrder)
    (h : Counted agg.retvals) : Counted (agg.record order c).retvals := by
  rw [record_retvals, hc]
  split
  · exact counted_recordRetval order c.retval h
  · exact h

/-- Along a run, as long as the calls recorded have the weight 1. -/
theorem counted_handleAll (cfg : Config) (pid : UInt32) (arrivals : List (GoftraceEvent × Env))
    (h : ∀ c ∈ recordedSince cfg pid {} [] arrivals, c.counted = 1) (fn : String) :
    Counted (FMap.get ((handleAll cfg {} arrivals).1.process pid).agg {} fn).retvals := by
  have hempty : Counted (∅ : FMap String RetvalCount) := fun v r hv => by cases hv
  have hrun := @recorded_handleAll
    (fun agg cs => (∀ c ∈ cs, c.counted = 1) → ∀ fn, Counted (FMap.get agg {} fn).retvals)
    (fun _ _ => hempty) (fun order agg cs c hagg hcs fn => ?_) cfg pid arrivals {} []
    fun _ _ => hempty
  · exact hrun h fn
  · obtain ⟨hcs, hc⟩ := List.forall_mem_append.mp hcs
    by_cases hfn : fn = c.funcname
    · subst hfn
      rw [recordAgg, FMap.get_insert_self]
      exact counted_record (hc c (List.mem_singleton_self c)) order (hagg hcs c.funcname)
    · rw [recordAgg, FMap.get_insert_of_ne _ _ _ hfn]
      exact hagg hcs fn

theorem sum_counted {cs : List AggCall} (h : ∀ c ∈ cs, c.counted = 1) :
    (cs.map AggCall.counted).sum = cs.length := by
  rw [List.map_congr_left h, List.map_const', List.sum_replicate]
  simp

theorem unscaled_summary (range : RangeOrder) {agg : FMap String FuncAgg} {cs : List AggCall}
    (htells : Tells agg cs) (hcs : ∀ c ∈ cs, c.counted = 1)
    (hretvals : ∀ fn, Counted (FMap.get agg {} fn).retvals) :
    ∀ s ∈ printAggregateSummary range agg, Unscaled s := by
  intro s hs
  have hown : ∀ c ∈ callsTo s.name cs, c.counted = 1 := fun c hc => hcs c (List.mem_of_mem_filter hc)
  have hshown := (htells.summary range).shown s hs
  refine ⟨?_, ?_, ?_⟩
  · rw [hshown.weightedCalls, hshown.calls, sum_counted hown]
  · rw [hshown.latencies]
    intro p hp
    obtain ⟨i, rfl⟩ := List.mem_ofFn.mp hp
    dsimp only
    rw [sum_counted fun c hc => hown c (List.mem_of_mem_filter hc), ← List.countP_eq_length_filter]
  · obtain ⟨fn, -, rfl⟩ := List.mem_map.mp hs
    intro x hx
    have hmem : x ∈ pairs (FMap.get agg {} fn).retvals := by
      have htop : x ∈ (rank RetvalCount.weightedCount (range.apply
        (pairs (FMap.get agg {} fn).retvals))).take 10 := hx
      exact (range.perm _).mem_iff.mp ((rank_perm _).mem_iff.mp (List.mem_of_mem_take htop))
    exact hretvals fn x.1 x.2 (mem_pairs.mp hmem)

/-- A run of entries of denominator 1 is summarized with estimates that are the counts. -/
theorem unscaled_handleAll (cfg : Config) {arrivals : List (GoftraceEvent × Env)}
    (h : ∀ a ∈ arrivals, Single a.1) (range : RangeOrder) :
    ∀ sec ∈ aggregateSections range (handleAll cfg {} arrivals).1, ∀ s ∈ sec.2, Unscaled s := by
  have hsingle : ∀ pid, ∀ c ∈ recordedSince cfg pid {} [] arrivals, c.counted = 1 := fun pid =>
    recordedSince_single pid arrivals h (fun k r hr => by cases hr) (List.forall_mem_nil _)
  have hpid : ∀ pid, ∀ s ∈ printAggregateSummary range
      ((handleAll cfg {} arrivals).1.process pid).agg, Unscaled s := fun pid =>
    unscaled_summary range (tells_handleAll cfg pid arrivals) (hsingle pid)
      (counted_handleAll cfg pid arrivals (hsingle pid))
  intro sec hsec
  rcases aggregateSections_cases range (handleAll cfg {} arrivals).1 with
    ⟨pid, -, heq⟩ | ⟨-, heq⟩
  · rw [heq, List.mem_singleton] at hsec
    subst hsec
    exact hpid pid
  · rw [heq] at hsec
    obtain ⟨pid, -, rfl⟩ := List.mem_map.mp hsec
    exact hpid pid

end GoFtrace.EventManager
