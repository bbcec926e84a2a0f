import GoFtrace.EventManager.Discard
import GoFtrace.EventManager.Print
import GoFtrace.EventManager.Retvals
import GoFtrace.Lib.Ranking
import Mathlib.Data.String.Basic

/-!
# The aggregate summary

`PrintAggregateSummary` of `internal/eventmanager/print.go`: the counters of the functions of
each process, and the ten return values that weigh most.

* `handleAll_summary`: what the summary says of the calls recorded so far.
* `handleAll_shutdown`: what `PrintRemaining` leaves behind.
-/

namespace GoFtrace.EventManager

open Lib Lib.SpaceSaving

/-! ## The summary of a process -/

/-- The order in which `range` yields the entries of a map. -/
structure RangeOrder where
  apply : {α : Type} → List α → List α
  perm : ∀ {α : Type} (l : List α), (apply l).Perm l

/-- What the summary shows of a function. -/
structure FuncSummary where
  name : String
  calls : Nat
  weightedCalls : Nat
  /-- The counted and the estimated calls of each bucket. -/
  latencies : List (Nat × Nat)
  top : List (String × RetvalCount)
  deriving DecidableEq, Repr

/-- `top`, the first ten of `kvs`. -/
def topRetvals (range : RangeOrder) (retvals : FMap String RetvalCount) :
    List (String × RetvalCount) :=
  (rank RetvalCount.weightedCount (range.apply (pairs retvals))).take 10

/-- The body of the loop of `printAggregateSummary`. -/
def funcSummary (range : RangeOrder) (fn : String) (a : FuncAgg) : FuncSummary where
  name := fn
  calls := a.calls
  weightedCalls := a.weightedCalls
  latencies := List.ofFn fun i : Fin latencySlots => (a.latencies.get i, a.weightedLatencies.get i)
  top := topRetvals range a.retvals

/-- `sort.Strings`. -/
def sortStrings (l : List String) : List String := l.mergeSort fun a b => decide (a ≤ b)

/-- `printAggregateSummary`. -/
def printAggregateSummary (range : RangeOrder) (agg : FMap String FuncAgg) : List FuncSummary :=
  (sortStrings (range.apply agg.keys)).map fun fn => funcSummary range fn (FMap.get agg {} fn)

/-! ## All processes -/

/-- The part of `PrintAggregateSummary` for the processes, with the `pid` of each section. A
single process has no section of its own. -/
def aggregateSections (range : RangeOrder) (m : EventManager) :
    List (Option UInt32 × List FuncSummary) :=
  match m.pids.entries with
  | [p] => [(none, printAggregateSummary range p.2.agg)]
  | _ =>
    ((range.apply m.pids.keys).mergeSort fun p q => decide (p ≤ q)).map fun pid =>
      (some pid, printAggregateSummary range (m.process pid).agg)

/-! ## Return values -/

/-- The return values of some calls, with the weights that they are counted with. -/
def returned (cs : List AggCall) : List (String × Nat) :=
  (cs.filter fun c => c.retval ≠ "").map fun c => (c.retval, c.counted)

theorem returned_append (cs ds : List AggCall) :
    returned (cs ++ ds) = returned cs ++ returned ds := by
  rw [returned, List.filter_append, List.map_append]
  rfl

/-- The printed return values and the stream that they summarize. -/
structure Ranks (xs : List (String × Nat)) (top : List (String × RetvalCount)) : Prop where
  sorted : top.Pairwise fun x y => before RetvalCount.weightedCount x y = true
  length_le : top.length ≤ 10
  bounds : ∀ x ∈ top, freq xs x.1 ≤ x.2.weightedCount ∧
    x.2.weightedCount ≤ freq xs x.1 + x.2.weightedError ∧ x.2.count ≤ occ xs x.1
  rest : ∀ u, u ∉ top.map Prod.fst → ∀ x ∈ top, freq xs u ≤ x.2.weightedCount
  heavy : ∀ v, streamWeight xs < 11 * freq xs v → v ∈ top.map Prod.fst
  short : top.length < 10 → ∀ v ∈ support xs, v ∈ top.map Prod.fst
  exact : (support xs).card ≤ maxAggregateRetvals →
    (∀ x ∈ top, x.2 = { count := occ xs x.1, weightedCount := freq xs x.1 }) ∧
      ∀ u ∈ support xs, u ∉ top.map Prod.fst → ∀ x ∈ top,
        freq xs u < freq xs x.1 ∨ freq xs u = freq xs x.1 ∧ x.1 < u

section
variable {xs : List (String × Nat)} {retvals : FMap String RetvalCount} (range range' : RangeOrder)

theorem apply_pairs_nodup (retvals : FMap String RetvalCount) :
    ((range.apply (pairs retvals)).map Prod.fst).Nodup :=
  ((range.perm (pairs retvals)).map Prod.fst).nodup_iff.mpr (pairs_nodup retvals)

theorem topRetvals_congr (retvals : FMap String RetvalCount) :
    topRetvals range retvals = topRetvals range' retvals := by
  unfold topRetvals
  rw [rank_congr (apply_pairs_nodup range retvals)
    ((range.perm _).trans (range'.perm _).symm)]

theorem topRetvals_eq (retvals : FMap String RetvalCount) :
    topRetvals range retvals = (rank RetvalCount.weightedCount (pairs retvals)).take 10 := by
  unfold topRetvals
  rw [rank_congr (apply_pairs_nodup range retvals) (range.perm _)]

/-- A value of the table that is not printed has ten others before it. -/
theorem unprinted {u : String} {c : RetvalCount} (hu : retvals.lookup u = some c)
    (hnot : u ∉ (topRetvals range retvals).map Prod.fst) :
    (topRetvals range retvals).length = 10 ∧
      ∀ x ∈ topRetvals range retvals, before RetvalCount.weightedCount x (u, c) = true := by
  rw [topRetvals_eq] at hnot ⊢
  have hmem : (u, c) ∈ pairs retvals := mem_pairs.mpr hu
  obtain ⟨hlen, hbefore, -⟩ := rank_take (pairs_nodup retvals) hmem fun htake =>
    hnot (List.mem_map.mpr ⟨_, htake, rfl⟩)
  exact ⟨hlen, hbefore⟩

/-- The values printed are those of the table that weigh most. -/
theorem ranks_topRetvals
    (h : Summarizes RetvalCount.counter maxAggregateRetvals xs retvals) :
    Ranks xs (topRetvals range retvals) := by
  have hlook : ∀ x ∈ topRetvals range retvals, retvals.lookup x.1 = some x.2 := by
    intro x hx
    rw [topRetvals_eq] at hx
    exact mem_pairs.mp ((rank_perm _).mem_iff.mp (List.mem_of_mem_take hx))
  refine ⟨?_, List.length_take_le _ _, fun x hx => ?_, fun u hu x hx => ?_, fun v hv => ?_,
    fun hlt v hv => ?_, fun hcard => ⟨fun x hx => ?_, fun u hmem hu x hx => ?_⟩⟩
  · rw [topRetvals_eq]
    exact (rank_sorted (pairs_nodup retvals)).sublist (List.take_sublist _ _)
  · exact ⟨h.lower x.1 x.2 (hlook x hx), h.upper x.1 x.2 (hlook x hx),
      h.count_le x.1 x.2 (hlook x hx)⟩
  · cases hlu : retvals.lookup u with
    | none => exact h.absent u hlu x.1 x.2 (hlook x hx)
    | some c =>
      have hle := weight_le_of_before ((unprinted range hlu hu).2 x hx)
      exact Nat.le_trans (h.lower u c hlu) hle
  · obtain ⟨c, hc⟩ := h.top (n := 10) (by decide) hv
    rw [topRetvals_eq]
    exact List.mem_map.mpr ⟨_, hc, rfl⟩
  · have hroom : retvals.lookup v ≠ none := by
      refine h.room ?_ v hv
      rw [topRetvals_eq, List.length_take, (rank_perm _).length_eq, pairs, List.length_map] at hlt
      have hten : 10 < maxAggregateRetvals := by decide
      rw [FMap.size]
      omega
    obtain ⟨c, hc⟩ := Option.ne_none_iff_exists'.mp hroom
    by_contra hnot
    exact absurd (unprinted range hc hnot).1 (Nat.ne_of_lt hlt)
  · have hexact := (h.exact hcard).2 x.1 x.2 (hlook x hx)
    obtain ⟨hcount, hweight, herror⟩ := Counter.mk.inj hexact
    cases hx2 : x.2
    rw [hx2] at hcount hweight herror
    rw [← hcount, ← hweight, ← herror]
  · obtain ⟨hall, hexact⟩ := h.exact hcard
    obtain ⟨c, hc⟩ := Option.ne_none_iff_exists'.mp (hall u hmem)
    have hx2 := (Counter.mk.inj (hexact x.1 x.2 (hlook x hx))).2.1
    have hc2 := (Counter.mk.inj (hexact u c hc)).2.1
    have hbefore := before_iff.mp ((unprinted range hc hu).2 x hx)
    rw [hx2, hc2] at hbefore
    exact hbefore.imp_right fun heq => ⟨heq.1.symm, heq.2⟩

end

/-! ## Every run -/

/-- What the recording of a call keeps holds of the counters of a process and the calls recorded
for it. -/
theorem recorded_handleAll {P : FMap String FuncAgg → List AggCall → Prop} (hempty : P ∅ [])
    (hcall : ∀ order agg cs c, P agg cs → P (recordAgg order agg c) (cs ++ [c])) (cfg : Config)
    (pid : UInt32) (arrivals : List (GoftraceEvent × Env)) {m : EventManager} {cs : List AggCall}
    (h : P (m.process pid).agg cs) :
    P ((handleAll cfg m arrivals).1.process pid).agg (recordedSince cfg pid m cs arrivals) := by
  have hcalls : ∀ order calls agg cs, P agg cs →
      P (calls.foldl (recordAgg order) agg) (cs ++ calls) := by
    intro order calls
    induction calls with
    | nil =>
      intro agg cs h
      rwa [List.append_nil]
    | cons c calls ih =>
      intro agg cs h
      have hnext := ih _ _ (hcall order agg cs c h)
      rwa [List.append_assoc] at hnext
  induction arrivals generalizing m cs with
  | nil => exact h
  | cons arrival arrivals ih =>
    obtain ⟨event, env⟩ := arrival
    have hnext : P ((handle cfg env m event).1.process pid).agg
        (if pid ∈ (handle cfg env m event).1.pids then
          if event.pid = pid then cs ++ (handle cfg env m event).2.calls else cs
        else []) := by
      by_cases hp : pid ∈ (handle cfg env m event).1.pids
      · rw [if_pos hp]
        by_cases hpid : event.pid = pid
        · subst hpid
          rw [if_pos rfl, handle_agg]
          exact hcalls env.order _ _ _ h
        · rw [if_neg hpid, handle_agg_of_ne cfg env m (Ne.symm hpid) hp]
          exact h
      · rw [if_neg hp, process_eq_default (AList.lookup_eq_none.mpr hp)]
        exact hempty
    exact ih hnext

/-- The calls of a function. -/
def callsTo (fn : String) (cs : List AggCall) : List AggCall := cs.filter fun c => c.funcname = fn

theorem callsTo_append (fn : String) (cs ds : List AggCall) :
    callsTo fn (cs ++ ds) = callsTo fn cs ++ callsTo fn ds := List.filter_append ..

/-- The counters of a process tell the calls recorded for it. -/
structure Tells (agg : FMap String FuncAgg) (cs : List AggCall) : Prop where
  counts : TableCounts agg cs
  names : ∀ fn, fn ∈ agg ↔ ∃ c ∈ cs, c.funcname = fn
  retvals : ∀ fn, Summarizes RetvalCount.counter maxAggregateRetvals (returned (callsTo fn cs))
    (FMap.get agg {} fn).retvals

theorem tells_empty : Tells ∅ [] where
  counts := tableCounts_empty
  names fn := by simp
  retvals _ := .nil maxAggregateRetvals

theorem summarizes_record {agg : FuncAgg} {cs : List AggCall}
    (h : Summarizes RetvalCount.counter maxAggregateRetvals (returned cs) agg.retvals)
    (order : MapOrder) (c : AggCall) :
    Summarizes RetvalCount.counter maxAggregateRetvals (returned (cs ++ [c]))
      (agg.record order c).retvals := by
  rw [record_retvals, returned_append]
  by_cases hr : c.retval = ""
  · simpa [hr, returned] using h
  · have hw : c.counted ≠ 0 := by
      unfold AggCall.counted
      split <;> omega
    have hstep := recordRetval_step order c.retval c.counted agg.retvals
    rw [if_neg hw] at hstep
    simpa [hr, returned] using h.step hstep

theorem Tells.recordAgg {agg : FMap String FuncAgg} {cs : List AggCall} (h : Tells agg cs)
    (order : MapOrder) (c : AggCall) : Tells (recordAgg order agg c) (cs ++ [c]) := by
  refine ⟨h.counts.recordAgg order c, fun fn => ?_, fun fn => ?_⟩
  · rw [EventManager.recordAgg, AList.mem_insert, h.names fn]
    constructor
    · rintro (rfl | ⟨c', hc', hfn⟩)
      · exact ⟨c, by simp, rfl⟩
      · exact ⟨c', List.mem_append_left _ hc', hfn⟩
    · rintro ⟨c', hc', hfn⟩
      rcases List.mem_append.mp hc' with hc' | hc'
      · exact .inr ⟨c', hc', hfn⟩
      · rw [List.mem_singleton.mp hc'] at hfn
        exact .inl hfn.symm
  · rw [callsTo_append]
    by_cases hfn : fn = c.funcname
    · subst hfn
      have hown : callsTo c.funcname [c] = [c] := by simp [callsTo]
      rw [EventManager.recordAgg, FMap.get_insert_self, hown]
      exact summarizes_record (h.retvals c.funcname) order c
    · have hother : callsTo fn [c] = [] := by simp [callsTo, Ne.symm hfn]
      rw [EventManager.recordAgg, FMap.get_insert_of_ne _ _ _ hfn, hother, List.append_nil]
      exact h.retvals fn

theorem tells_handleAll (cfg : Config) (pid : UInt32) (arrivals : List (GoftraceEvent × Env)) :
    Tells ((handleAll cfg {} arrivals).1.process pid).agg
      (recordedSince cfg pid {} [] arrivals) :=
  recorded_handleAll tells_empty (fun order _ _ c h => h.recordAgg order c) cfg pid arrivals
    (m := {}) tells_empty

/-- What the summary shows of a function is what its calls are. -/
structure Shown (cs : List AggCall) (s : FuncSummary) : Prop where
  calls : s.calls = cs.length
  weightedCalls : s.weightedCalls = (cs.map AggCall.counted).sum
  latencies : s.latencies = List.ofFn fun i : Fin latencySlots =>
    (cs.countP (inBucket i), ((cs.filter (inBucket i)).map AggCall.counted).sum)
  top : Ranks (returned cs) s.top

/-- The summary of a process: each function that was called, in the order of their names. -/
structure Summary (cs : List AggCall) (funcs : List FuncSummary) : Prop where
  sorted : (funcs.map FuncSummary.name).Pairwise (· < ·)
  names : ∀ fn, fn ∈ funcs.map FuncSummary.name ↔ ∃ c ∈ cs, c.funcname = fn
  shown : ∀ s ∈ funcs, Shown (callsTo s.name cs) s

section
variable (range range' : RangeOrder)

theorem sortStrings_perm (l : List String) : (sortStrings l).Perm l := List.mergeSort_perm _ _

theorem sortStrings_sorted {l : List String} (h : l.Nodup) :
    (sortStrings l).Pairwise (· < ·) := by
  have hle : (sortStrings l).Pairwise (· ≤ ·) := by
    have hsorted := @List.pairwise_mergeSort _ (fun a b : String => decide (a ≤ b))
      (fun a b c hab hbc => by
        simpa using le_trans (of_decide_eq_true hab) (of_decide_eq_true hbc))
      (fun a b => by simpa using le_total a b) l
    simpa only [sortStrings, decide_eq_true_eq] using hsorted
  have hne : (sortStrings l).Nodup := (sortStrings_perm l).nodup_iff.mpr h
  exact (List.pairwise_and_iff.mpr ⟨hle, hne⟩).imp fun h => lt_of_le_of_ne h.1 h.2

theorem sortStrings_congr {l l' : List String} (h : l.Nodup) (hperm : l.Perm l') :
    sortStrings l = sortStrings l' := by
  refine List.Perm.eq_of_pairwise ?_ (sortStrings_sorted h)
    (sortStrings_sorted (hperm.nodup_iff.mp h)) ?_
  · exact fun a b _ _ hab hba => absurd hba (lt_asymm hab)
  · exact (sortStrings_perm l).trans (hperm.trans (sortStrings_perm l').symm)

/-- The order of the maps does not matter to the summary. -/
theorem printAggregateSummary_congr (agg : FMap String FuncAgg) :
    printAggregateSummary range agg = printAggregateSummary range' agg := by
  have hnodup : (range.apply agg.keys).Nodup := (range.perm _).nodup_iff.mpr agg.keys_nodup
  unfold printAggregateSummary
  rw [sortStrings_congr hnodup ((range.perm _).trans (range'.perm _).symm)]
  apply List.map_congr_left
  intro fn _
  rw [funcSummary, funcSummary, topRetvals_congr range range']

theorem Tells.summary {agg : FMap String FuncAgg} {cs : List AggCall} (h : Tells agg cs) :
    Summary cs (printAggregateSummary range agg) := by
  have hnames : (printAggregateSummary range agg).map FuncSummary.name =
      sortStrings (range.apply agg.keys) := by
    rw [printAggregateSummary, List.map_map]
    exact List.map_id _
  have hnodup : (range.apply agg.keys).Nodup := (range.perm _).nodup_iff.mpr agg.keys_nodup
  refine ⟨?_, fun fn => ?_, fun s hs => ?_⟩
  · rw [hnames]
    exact sortStrings_sorted hnodup
  · rw [hnames, (sortStrings_perm _).mem_iff, (range.perm _).mem_iff]
    exact h.names fn
  · obtain ⟨fn, -, rfl⟩ := List.mem_map.mp hs
    have hcounts := h.counts fn
    refine ⟨hcounts.calls, hcounts.weightedCalls, ?_, ranks_topRetvals range (h.retvals fn)⟩
    refine congrArg List.ofFn (funext fun i => ?_)
    exact Prod.ext (hcounts.latencies i) (hcounts.weightedLatencies i)

end

/-! ## The sections -/

/-- Two states have the same processes with the same counters. -/
structure SameTables (m m' : EventManager) : Prop where
  keys : m.pids.keys.Perm m'.pids.keys
  agg : ∀ pid, (m.process pid).agg = (m'.process pid).agg

theorem SameTables.refl (m : EventManager) : SameTables m m := ⟨.refl _, fun _ => rfl⟩

theorem SameTables.trans {m m' m'' : EventManager} (h : SameTables m m')
    (h' : SameTables m' m'') : SameTables m m'' :=
  ⟨h.keys.trans h'.keys, fun pid => (h.agg pid).trans (h'.agg pid)⟩

theorem keys_eq (m : EventManager) : m.pids.keys = m.pids.entries.map Sigma.fst := rfl

section
variable (range range' : RangeOrder)

/-- `sort.Slice` of the processes. -/
theorem sortPids_congr {l l' : List UInt32} (h : l.Perm l') :
    l.mergeSort (fun p q => decide (p ≤ q)) = l'.mergeSort fun p q => decide (p ≤ q) := by
  have hsorted : ∀ l : List UInt32, (l.mergeSort fun p q => decide (p ≤ q)).Pairwise (· ≤ ·) := by
    intro l
    have hsorted := @List.pairwise_mergeSort _ (fun p q : UInt32 => decide (p ≤ q))
      (fun a b c hab hbc => by
        simpa using UInt32.le_trans (of_decide_eq_true hab) (of_decide_eq_true hbc))
      (fun a b => by simpa using UInt32.le_total a b) l
    simpa only [decide_eq_true_eq] using hsorted
  refine List.Perm.eq_of_pairwise ?_ (hsorted l) (hsorted l') ?_
  · exact fun a b _ _ hab hba => UInt32.le_antisymm hab hba
  · exact (List.mergeSort_perm l _).trans (h.trans (List.mergeSort_perm l' _).symm)

/-- The sections of many processes. -/
def sectionsByPid (m : EventManager) : List (Option UInt32 × List FuncSummary) :=
  ((range.apply m.pids.keys).mergeSort fun p q => decide (p ≤ q)).map fun pid =>
    (some pid, printAggregateSummary range (m.process pid).agg)

theorem aggregateSections_cases (m : EventManager) :
    (∃ pid, m.pids.keys = [pid] ∧
      aggregateSections range m = [(none, printAggregateSummary range (m.process pid).agg)]) ∨
    m.pids.keys.length ≠ 1 ∧ aggregateSections range m = sectionsByPid range m := by
  unfold aggregateSections
  split
  · rename_i p hentries
    left
    refine ⟨p.1, by rw [keys_eq, hentries]; rfl, ?_⟩
    rw [process_of_mem (p := p) (by rw [hentries]; exact List.mem_singleton_self p)]
  · rename_i hno
    refine .inr ⟨fun hlen => ?_, rfl⟩
    rw [keys_eq, List.length_map] at hlen
    obtain ⟨p, hp⟩ := List.length_eq_one_iff.mp hlen
    exact hno p hp

theorem SameTables.sections {m m' : EventManager} (h : SameTables m m') :
    aggregateSections range m = aggregateSections range' m' := by
  have hperm : (range.apply m.pids.keys).Perm (range'.apply m'.pids.keys) :=
    (range.perm _).trans (h.keys.trans (range'.perm _).symm)
  have hlen := h.keys.length_eq
  rcases aggregateSections_cases range m with ⟨pid, hkeys, heq⟩ | ⟨hmany, heq⟩
  · rcases aggregateSections_cases range' m' with ⟨pid', hkeys', heq'⟩ | ⟨hmany', -⟩
    · have hpid : pid = pid' := by
        have hk := h.keys
        rw [hkeys, hkeys'] at hk
        exact List.singleton_perm_singleton.mp hk
      subst hpid
      rw [heq, heq', h.agg pid, printAggregateSummary_congr range range']
    · exact absurd (hlen.symm.trans (by rw [hkeys]; rfl)) hmany'
  · rcases aggregateSections_cases range' m' with ⟨pid', hkeys', -⟩ | ⟨-, heq'⟩
    · exact absurd (hlen.trans (by rw [hkeys']; rfl)) hmany
    · rw [heq, heq', sectionsByPid, sectionsByPid, sortPids_congr hperm]
      apply List.map_congr_left
      intro pid _
      rw [h.agg pid, printAggregateSummary_congr range range']

end

/-! ## The cleanup -/

section
variable {cfg : Config} {m : EventManager}

theorem sameTables_dropStack (cfg : Config) (m : EventManager) (k : TraceKey) :
    SameTables (dropStack cfg (countIncomplete m) k) m := by
  unfold dropStack
  cases hcounted : (countIncomplete m).pids.lookup k.pid with
  | none => exact ⟨.refl _, fun _ => rfl⟩
  | some s =>
    have hlook : m.pids.lookup k.pid = some s := hcounted
    have hkeys : (m.pids.insert k.pid (s.drop k.goid)).keys.Perm m.pids.keys := by
      rw [AList.keys_insert]
      have hmem : k.pid ∈ m.pids.keys := AList.mem_keys.mp (AList.lookup_isSome.mp (by simp [hlook]))
      exact (List.perm_cons_erase hmem).symm
    have hagg : ∀ pid, (FMap.get (m.pids.insert k.pid (s.drop k.goid)) {} pid).agg =
        (m.process pid).agg := by
      intro pid
      by_cases hpid : pid = k.pid
      · subst hpid
        rw [FMap.get_insert_self, process_eq_of_lookup hlook]
        rfl
      · rw [FMap.get_insert_of_ne _ _ _ hpid]
        rfl
    cases cfg.adaptive with
    | false => exact ⟨hkeys, hagg⟩
    | true => exact ⟨hkeys, hagg⟩

/-- The cleanup keeps the counters of the functions. -/
theorem sameTables_cleanup (cfg : Config) (ks : List TraceKey) (m : EventManager) :
    SameTables (ks.foldl (fun m k => dropStack cfg (countIncomplete m) k) m) m := by
  induction ks generalizing m with
  | nil => exact .refl m
  | cons k ks ih => exact (ih _).trans (sameTables_dropStack cfg m k)

theorem process_dropStack_of_ne (cfg : Config) (m : EventManager) {k : TraceKey} {pid : UInt32}
    (h : pid ≠ k.pid) : (dropStack cfg m k).process pid = m.process pid := by
  unfold dropStack
  cases m.pids.lookup k.pid with
  | none => rfl
  | some s =>
    dsimp only
    rw [process_setProcess_of_ne _ _ h]
    cases cfg.adaptive <;> rfl

theorem events_dropStack (cfg : Config) (m : EventManager) (k k' : TraceKey) :
    (dropStack cfg m k).events k' = if k' = k then [] else m.events k' := by
  unfold events
  by_cases hpid : k'.pid = k.pid
  · rw [hpid, dropStack_process, PidState.events, PidState.drop]
    by_cases hgoid : k'.goid = k.goid
    · have hk : k' = k := by
        cases k
        cases k'
        simp_all
      rw [if_pos hk, hgoid, FMap.get_erase_self]
    · have hk : k' ≠ k := fun h => hgoid (congrArg _ h)
      rw [if_neg hk, FMap.get_erase_of_ne _ _ hgoid]
      rfl
  · have hk : k' ≠ k := fun h => hpid (congrArg _ h)
    rw [if_neg hk, process_dropStack_of_ne cfg m hpid]

/-- The goroutines that are cleaned up have no events left. -/
theorem events_cleanup (cfg : Config) (ks : List TraceKey) (m : EventManager) (k : TraceKey) :
    (ks.foldl (fun m k => dropStack cfg (countIncomplete m) k) m).events k =
      if k ∈ ks then [] else m.events k := by
  induction ks generalizing m with
  | nil => rfl
  | cons k' ks ih =>
    have hcount : (countIncomplete m).events k = m.events k := rfl
    rw [List.foldl_cons, ih, events_dropStack, hcount]
    by_cases hmem : k ∈ ks
    · simp [hmem]
    · by_cases hk : k = k' <;> simp [hmem, hk]

theorem mem_remaining_of_events {k : TraceKey} (h : m.events k ≠ []) : k ∈ m.remaining := by
  cases hlook : m.pids.lookup k.pid with
  | none =>
    rw [events, process_eq_default hlook] at h
    exact absurd rfl h
  | some s =>
    rw [events, process_eq_of_lookup hlook, PidState.events, FMap.get] at h
    refine List.mem_flatMap.mpr ⟨⟨k.pid, s⟩, AList.mem_lookup_iff.mp hlook, ?_⟩
    refine List.mem_map.mpr ⟨k.goid, ?_, rfl⟩
    cases hgoid : s.goEvents.lookup k.goid with
    | none =>
      rw [hgoid] at h
      exact absurd rfl h
    | some events => exact AList.mem_keys.mp (AList.lookup_isSome.mp (by simp [hgoid]))

theorem balanced_cleanup (ha : cfg.adaptive = true) (ks : List TraceKey) (h : Balanced m) :
    Balanced (ks.foldl (fun m k => dropStack cfg (countIncomplete m) k) m) := by
  induction ks generalizing m with
  | nil => exact h
  | cons k ks ih =>
    have hcount : Balanced (countIncomplete m) := h
    exact ih (balanced_dropStack ha k hcount)

theorem retainedTotal_eq_zero (h : ∀ k, m.events k = []) : m.retainedTotal = 0 := by
  refine List.sum_eq_zero fun n hn => ?_
  obtain ⟨p, hp, rfl⟩ := List.mem_map.mp hn
  refine List.sum_eq_zero fun n hn => ?_
  obtain ⟨e, he, rfl⟩ := List.mem_map.mp hn
  have hk := h { pid := p.1, goid := e.1 }
  rw [events, process_of_mem hp, PidState.events, FMap.get, AList.mem_lookup_iff.mpr he] at hk
  exact List.length_eq_zero_iff.mpr hk

end

/-! ## The results -/

/-- The summary tells the calls recorded since their process was last evicted: the functions of
each process with their counts, and the return values that weigh most, whatever the order of the
maps. -/
theorem handleAll_summary (cfg : Config) (arrivals : List (GoftraceEvent × Env))
    (range : RangeOrder) :
    let m := (handleAll cfg {} arrivals).1
    (∀ range', aggregateSections range' m = aggregateSections range m) ∧
      (∀ s ∈ aggregateSections range m, ∃ pid ∈ m.pids,
        (s.1 = some pid ∨ s.1 = none ∧ m.pids.keys = [pid]) ∧
          Summary (recordedSince cfg pid {} [] arrivals) s.2) ∧
      ∀ pid ∈ m.pids, ∃ s ∈ aggregateSections range m,
        (s.1 = some pid ∨ s.1 = none ∧ m.pids.keys = [pid]) ∧
          Summary (recordedSince cfg pid {} [] arrivals) s.2 := by
  intro m
  have hsummary := fun pid => (tells_handleAll cfg pid arrivals).summary range
  refine ⟨fun range' => (SameTables.refl m).sections range' range, fun s hs => ?_,
    fun pid hpid => ?_⟩
  · rcases aggregateSections_cases range m with ⟨pid, hkeys, heq⟩ | ⟨-, heq⟩
    · rw [heq, List.mem_singleton] at hs
      subst hs
      exact ⟨pid, AList.mem_keys.mpr (by rw [hkeys]; exact List.mem_singleton_self pid),
        .inr ⟨rfl, hkeys⟩, hsummary pid⟩
    · rw [heq] at hs
      obtain ⟨pid, hpid, rfl⟩ := List.mem_map.mp hs
      rw [List.mem_mergeSort, (range.perm _).mem_iff] at hpid
      exact ⟨pid, AList.mem_keys.mpr hpid, .inl rfl, hsummary pid⟩
  · rcases aggregateSections_cases range m with ⟨pid', hkeys, heq⟩ | ⟨-, heq⟩
    · have hmem := AList.mem_keys.mp hpid
      rw [hkeys, List.mem_singleton] at hmem
      subst hmem
      refine ⟨(none, printAggregateSummary range (m.process pid).agg), ?_, .inr ⟨rfl, hkeys⟩,
        hsummary pid⟩
      rw [heq]
      exact List.mem_singleton_self _
    · refine ⟨(some pid, printAggregateSummary range (m.process pid).agg), ?_, .inl rfl,
        hsummary pid⟩
      rw [heq]
      refine List.mem_map.mpr ⟨pid, ?_, rfl⟩
      rw [List.mem_mergeSort, (range.perm _).mem_iff]
      exact AList.mem_keys.mp hpid

/-- Once `PrintRemaining` has cleaned up after an aggregating run, no event is retained or counted
as pending, each goroutine that had events is one more incomplete sample, and the summary is that
of the run. -/
theorem handleAll_shutdown (cfg : Config) (hagg : cfg.aggregate = true)
    (arrivals : List (GoftraceEvent × Env)) (range : RangeOrder) :
    let m := (handleAll cfg {} arrivals).1
    let m' := printRemaining cfg m
    (∀ k, m'.events k = []) ∧ (cfg.adaptive = true → m'.pendingEvents = 0) ∧
      m'.droppedIncomplete = m.droppedIncomplete + m.remaining.length ∧
      (∀ k, k ∈ m.remaining ↔ m.events k ≠ []) ∧ m.remaining.Nodup ∧
      aggregateSections range m' = aggregateSections range m := by
  intro m m'
  have hm' : m' = m.remaining.foldl (fun m k => dropStack cfg (countIncomplete m) k) m := by
    change printRemaining cfg m = _
    rw [printRemaining, hagg, if_pos rfl]
  have htidy : Tidy m := by
    refine @handleAll_induction cfg Tidy (fun env m event h => ?_) _ _ fun _ => ?_
    · exact (tidy_stepwise cfg env event).handle h
    · exact PidState.Tidy.empty 0
  have hmem : ∀ k, k ∈ m.remaining ↔ m.events k ≠ [] :=
    fun k => ⟨mem_remaining htidy, mem_remaining_of_events⟩
  have hempty : ∀ k, m'.events k = [] := by
    intro k
    rw [hm', events_cleanup]
    split
    · rfl
    · rename_i hno
      by_contra hne
      exact hno ((hmem k).mpr hne)
  refine ⟨hempty, fun ha => ?_, ?_, hmem, remaining_nodup m, ?_⟩
  · have hbalanced : Balanced m := (invariants_handleAll ha arrivals).budgeted.balanced
    have hpending : m'.pendingEvents = m'.retainedTotal := by
      rw [hm']
      exact balanced_cleanup ha _ hbalanced
    rw [hpending, retainedTotal_eq_zero hempty]
  · have htally := congrArg Tally.incomplete (tally_printRemaining cfg m)
    rw [hagg, if_pos rfl] at htally
    exact htally
  · rw [hm']
    exact (sameTables_cleanup cfg _ m).sections range range

/-- The order of the entries themselves. -/
def entryOrder : RangeOrder where
  apply l := l
  perm l := .refl l

/-- A sample that is complete, and one that is not. -/
theorem handleAll_shutdown_open :
    let m := (handleAll (sampleConfig true) {}
      (sampleArrivals [sampleStart 0, sampleEnd 0, sampleStart 1])).1
    m.remaining = [{ pid := 1, goid := 1 }] ∧
      (printRemaining (sampleConfig true) m).droppedIncomplete = 1 ∧
      (printRemaining (sampleConfig true) m).pendingEvents = 0 := by
  intro m
  have hrem : m.remaining = [{ pid := 1, goid := 1 }] := rfl
  obtain ⟨-, hpending, hincomplete, -⟩ := handleAll_shutdown (sampleConfig true) rfl
    (sampleArrivals [sampleStart 0, sampleEnd 0, sampleStart 1]) entryOrder
  refine ⟨hrem, ?_, hpending rfl⟩
  rw [hincomplete]
  rfl

end GoFtrace.EventManager
