import GoFtrace.EventManager.Sample

/-!
# The counters of discarded samples

What one call of `Handle` adds to `droppedStacks` and its three parts, and to which sample:
the stale one that a start resets, or the sample of the event itself.

* `handle_tally`: the counters after a call.
* `handle_verdict`: what becomes of the sample of the event.
-/

namespace GoFtrace.EventManager

open Lib Uprobe

/-! ## The counters of a call -/

/-- The counters of discarded samples. -/
structure Tally where
  samples : Nat
  incomplete : Nat
  aborted : Nat
  overBudget : Nat
  deriving DecidableEq, Repr

def tally (m : EventManager) : Tally :=
  { samples := m.droppedStacks, incomplete := m.droppedIncomplete, aborted := m.droppedAborted
    overBudget := m.droppedOverBudget }

/-- The counters after a sample is counted as incomplete, aborted or over the budget. -/
def Tally.add (t : Tally) (incomplete aborted overBudget : Bool) : Tally :=
  { samples := t.samples + incomplete.toNat + aborted.toNat + overBudget.toNat
    incomplete := t.incomplete + incomplete.toNat
    aborted := t.aborted + aborted.toNat
    overBudget := t.overBudget + overBudget.toNat }

/-- The event marks its sample as aborted. -/
def aborts (cfg : Config) (event : GoftraceEvent) : Bool :=
  event.location != Bpf.goroutineExitPoint && (cfg.adaptive && hasFlag event Bpf.traceAbort)

/-- The event comes to `Add` in adaptive mode. -/
def asksAdmission (cfg : Config) (event : GoftraceEvent) : Bool :=
  event.location != Bpf.goroutineExitPoint && (cfg.adaptive && !hasFlag event Bpf.traceAbort)

/-- The event starts a sample while an older one is open. -/
def resetsStale (cfg : Config) (m : EventManager) (event : GoftraceEvent) : Bool :=
  asksAdmission cfg event &&
    (hasFlag event Bpf.traceStart && decide (0 < (m.events event.key).length))

/-- The event is not part of a suppressed sample, and the memory budget is used up. -/
def overBudget (cfg : Config) (m : EventManager) (event : GoftraceEvent) : Bool :=
  asksAdmission cfg event &&
    (!(decide (event.key ∈ m.suppressed) && !hasFlag event Bpf.traceStart) &&
      budgetFull cfg m event)

def Outcome.isDiscarded : Outcome → Bool
  | .discarded => true
  | _ => false

def Outcome.isAggregated : Outcome → Bool
  | .aggregated _ _ _ => true
  | _ => false

section
variable (cfg : Config) (env : Env) (m : EventManager) (event : GoftraceEvent)

@[simp] theorem tally_dropStack (k : TraceKey) : (dropStack cfg m k).tally = m.tally := by
  unfold dropStack
  cases m.pids.lookup k.pid with
  | none => rfl
  | some s => cases cfg.adaptive <;> rfl

@[simp] theorem tally_pidState (pid : UInt32) : (m.pidState cfg pid).tally = m.tally := by
  rw [pidState_eq]
  rfl

theorem tally_countIncomplete : (countIncomplete m).tally = m.tally.add true false false := rfl

theorem tally_resetStaleSample :
    (resetStaleSample cfg m event).tally =
      m.tally.add (hasFlag event Bpf.traceStart && decide (0 < (m.events event.key).length))
        false false := by
  unfold resetStaleSample
  split
  · rename_i h
    rw [h, tally_countIncomplete, tally_dropStack]
  · rename_i h
    rw [Bool.eq_false_iff.mpr h]
    rfl

@[simp] theorem tally_unsuppress : (unsuppress m event).tally = m.tally := by
  unfold unsuppress
  split <;> rfl

theorem tally_rejectOverBudget :
    (rejectOverBudget cfg m event).tally = m.tally.add false false true := by
  rw [← tally_dropStack cfg m event.key]
  unfold rejectOverBudget
  cases hasFlag event Bpf.traceEnd <;> rfl

theorem tally_retain (probe : Uprobe) : (retain cfg env m event probe).1.tally = m.tally := by
  have happend : (appendEvent cfg env m event probe).tally = m.tally := by
    obtain ⟨l, r, h⟩ := appendEvent_eq cfg env m event probe
    rw [h]
    rfl
  unfold retain
  dsimp only
  split
  · split
    · rfl
    · split
      · rfl
      · exact happend
  · split
    · rfl
    · exact happend

theorem tally_closePrint : (closePrint cfg m event).1.tally = m.tally ∧
    (closePrint cfg m event).2.isDiscarded = false := by
  unfold closePrint
  split
  · exact ⟨tally_pidState cfg m event.pid, rfl⟩
  · split
    · split
      · exact ⟨tally_pidState cfg m event.pid, rfl⟩
      · exact ⟨rfl, rfl⟩
    · exact ⟨rfl, rfl⟩

theorem tally_closeAggregate (k : TraceKey) :
    (closeAggregate cfg env m k).1.tally =
      m.tally.add (closeAggregate cfg env m k).2.isDiscarded false false := by
  unfold closeAggregate
  dsimp only
  split
  · rw [tally_countIncomplete, tally_pidState]
    rfl
  · change ((m.pidState cfg k.pid).pidState cfg k.pid).tally = _
    rw [tally_pidState, tally_pidState]
    rfl

theorem tally_closeStack :
    (closeStack cfg env m event).1.tally =
      m.tally.add (closeStack cfg env m event).2.isDiscarded false false := by
  unfold closeStack
  dsimp only
  split
  · rw [tally_pidState]
    rfl
  · rw [tally_dropStack]
    split
    · rw [tally_closeAggregate, tally_pidState]
    · obtain ⟨hsame, hout⟩ := tally_closePrint cfg (m.pidState cfg event.pid) event
      rw [hsame, hout, tally_pidState]
      rfl

/-- What the admission counts: a stale sample, and a rejection over the budget. -/
theorem tally_admission (ha : cfg.adaptive = true) :
    (admission cfg m event).1.tally =
        m.tally.add (hasFlag event Bpf.traceStart && decide (0 < (m.events event.key).length))
          false (!(decide (event.key ∈ m.suppressed) && !hasFlag event Bpf.traceStart) &&
            budgetFull cfg m event) ∧
      ((!(decide (event.key ∈ m.suppressed) && !hasFlag event Bpf.traceStart) &&
        budgetFull cfg m event) = true → (admission cfg m event).2 = false) := by
  have hstale := tally_resetStaleSample cfg m event
  have hsup := resetStaleSample_suppressed cfg m event
  have hpending := unsuppress_pendingEvents (resetStaleSample cfg m event) event
  unfold admission budgetFull
  rw [ha]
  simp only [Bool.not_true, Bool.false_eq_true, if_false, hsup, hpending]
  split
  · rename_i h
    rw [h, tally_unsuppress, hstale]
    exact ⟨rfl, fun hfalse => absurd hfalse Bool.false_ne_true⟩
  · rename_i h
    rw [Bool.eq_false_iff.mpr h]
    split
    · rename_i hfull
      rw [tally_rejectOverBudget, tally_unsuppress, hstale, decide_eq_true hfull]
      exact ⟨rfl, fun _ => rfl⟩
    · rename_i hfull
      rw [tally_unsuppress, hstale, decide_eq_false hfull]
      exact ⟨rfl, fun hfalse => absurd hfalse Bool.false_ne_true⟩

/-- What `Add` counts, and that a rejection over the budget is a rejection. -/
theorem tally_add (hasks : asksAdmission cfg event = true) :
    (add cfg env m event).1.tally =
        m.tally.add (resetsStale cfg m event) false (overBudget cfg m event) ∧
      (overBudget cfg m event = true → (add cfg env m event).2 = false) := by
  have ha : cfg.adaptive = true := by
    simp only [asksAdmission, Bool.and_eq_true] at hasks
    exact hasks.2.1
  obtain ⟨htally, hrejected⟩ := tally_admission cfg m event ha
  rw [resetsStale, overBudget, hasks, Bool.true_and, Bool.true_and]
  rw [← htally]
  unfold add
  generalize admission cfg m event = r at hrejected ⊢
  obtain ⟨m', ok⟩ := r
  cases ok with
  | false => exact ⟨rfl, fun _ => rfl⟩
  | true =>
    refine ⟨?_, fun h => absurd (hrejected h) (Ne.symm Bool.false_ne_true)⟩
    dsimp only
    rw [if_neg (by decide)]
    cases cfg.getUprobe event.ip with
    | none => rfl
    | some probe =>
      dsimp only
      rw [tally_retain, tally_pidState]

/-- The counters after a call: the stale sample that the event resets, and the sample of the
event itself. -/
theorem handle_tally (ha : cfg.adaptive = true) :
    (handle cfg env m event).1.tally =
      (m.tally.add (resetsStale cfg m event) false false).add
        (handle cfg env m event).2.isDiscarded (aborts cfg event) (overBudget cfg m event) := by
  by_cases hexit : event.location = Bpf.goroutineExitPoint
  · have hasks : asksAdmission cfg event = false := by simp [asksAdmission, hexit]
    have haborts : aborts cfg event = false := by simp [aborts, hexit]
    rw [resetsStale, overBudget, hasks, haborts, handle, if_pos hexit, onGoroutineExit,
      tally_dropStack]
    rfl
  have hloc : (event.location != Bpf.goroutineExitPoint) = true := by simpa using hexit
  cases hflag : hasFlag event Bpf.traceAbort with
  | true =>
    have hasks : asksAdmission cfg event = false := by simp [asksAdmission, hflag]
    have haborts : aborts cfg event = true := by simp [aborts, hloc, ha, hflag]
    have hdrop : (dropStack cfg { m with suppressed := m.suppressed.erase event.key }
        event.key).tally = m.tally := tally_dropStack cfg _ event.key
    rw [resetsStale, overBudget, hasks, haborts, ← hdrop, handle, if_neg hexit, ha, hflag]
    rfl
  | false =>
    have hasks : asksAdmission cfg event = true := by simp [asksAdmission, hloc, ha, hflag]
    have haborts : aborts cfg event = false := by simp [aborts, hflag]
    obtain ⟨htally, hrejected⟩ := tally_add cfg env m event hasks
    rw [haborts, handle, if_neg hexit, ha, hflag]
    simp only [Bool.and_false, Bool.false_eq_true, if_false]
    generalize add cfg env m event = r at htally hrejected ⊢
    obtain ⟨m', ok⟩ := r
    obtain rfl | rfl := Bool.eq_false_or_eq_true ok
    · have hno : overBudget cfg m event = false :=
        Bool.eq_false_iff.mpr fun h => absurd (hrejected h) (Ne.symm Bool.false_ne_true)
      rw [hno] at htally ⊢
      dsimp only at htally ⊢
      rw [if_neg (by decide), tally_closeStack, htally]
    · exact htally

end

/-- The total of the counters. -/
def Tally.Summed (t : Tally) : Prop := t.samples = t.incomplete + t.aborted + t.overBudget

theorem Tally.Summed.add {t : Tally} (h : t.Summed) (incomplete aborted overBudget : Bool) :
    (t.add incomplete aborted overBudget).Summed := by
  unfold Tally.Summed at h ⊢
  simp only [Tally.add]
  omega

theorem summed_handle {cfg : Config} (ha : cfg.adaptive = true) (env : Env) {m : EventManager}
    (event : GoftraceEvent) (h : m.tally.Summed) : (handle cfg env m event).1.tally.Summed := by
  rw [handle_tally cfg env m event ha]
  exact (h.add _ _ _).add _ _ _

/-! ## What becomes of a sample -/

/-- The last event of its sample. -/
def endsSample (event : GoftraceEvent) : Bool :=
  event.location == Bpf.goroutineExitPoint || hasFlag event Bpf.traceEnd ||
    hasFlag event Bpf.traceAbort

/-- How often a call counts the sample of its event: all it counts but the stale sample. -/
def ownCounts (cfg : Config) (env : Env) (m : EventManager) (event : GoftraceEvent) : Nat :=
  (handle cfg env m event).1.droppedStacks - m.droppedStacks -
    (resetsStale cfg m event).toNat

theorem ownCounts_eq {cfg : Config} (ha : cfg.adaptive = true) (env : Env) (m : EventManager)
    (event : GoftraceEvent) :
    ownCounts cfg env m event = (handle cfg env m event).2.isDiscarded.toNat +
      (aborts cfg event).toNat + (overBudget cfg m event).toNat ∧
      (handle cfg env m event).1.droppedStacks =
        m.droppedStacks + (resetsStale cfg m event).toNat + ownCounts cfg env m event := by
  have h : (handle cfg env m event).1.droppedStacks = m.droppedStacks +
      (resetsStale cfg m event).toNat + (false : Bool).toNat + (false : Bool).toNat +
      (handle cfg env m event).2.isDiscarded.toNat + (aborts cfg event).toNat +
      (overBudget cfg m event).toNat := congrArg Tally.samples (handle_tally cfg env m event ha)
  unfold ownCounts
  simp only [Bool.toNat_false] at h
  omega

/-- An event over the budget is rejected, and nothing is retained. -/
theorem handle_overBudget {cfg : Config} (env : Env) {m : EventManager} {event : GoftraceEvent}
    (h : overBudget cfg m event = true) :
    (handle cfg env m event).2 = .rejected ∧ (handle cfg env m event).1.events event.key = [] := by
  simp only [overBudget, asksAdmission, Bool.and_eq_true, bne_iff_ne, Bool.not_eq_true'] at h
  obtain ⟨⟨hloc, ha, hflag⟩, hsup, hfull⟩ := h
  obtain ⟨hview, hout⟩ := handle_view cfg env m event
  have hreset : ((m.view event.key).reset event).suppressed =
      decide (event.key ∈ m.suppressed) := by
    unfold View.reset
    split <;> rfl
  have hmachine : (m.view event.key).handle cfg (budgetFull cfg m event) event
      (argText cfg m event) = ({ suppressed := !hasFlag event Bpf.traceEnd }, .rejected) := by
    unfold View.handle View.add View.admission
    rw [if_neg hloc, ha, hflag, hfull]
    simp only [Bool.not_true, Bool.and_false, Bool.false_eq_true, if_false, hreset, hsup, if_true,
      Bool.not_false]
  rw [hmachine] at hview hout
  exact ⟨hout, congrArg View.events hview⟩

/-- A call settles the sample of its event, which is then counted or aggregated and ends or is
rejected over the budget; or it leaves the sample open. -/
inductive Verdict (cfg : Config) (env : Env) (m : EventManager) (event : GoftraceEvent) : Prop
  | settled (hcount : ownCounts cfg env m event +
        (handle cfg env m event).2.isAggregated.toNat = 1)
      (hempty : (handle cfg env m event).1.events event.key = [])
      (hlast : overBudget cfg m event = true ∨ endsSample event = true)
      (hcause : aborts cfg event = true ∨ overBudget cfg m event = true ∨
        hasFlag event Bpf.traceStart = true ∨ m.events event.key ≠ [])
  | unsettled (hcount : ownCounts cfg env m event = 0)
      (haggregated : (handle cfg env m event).2.isAggregated = false)
      (hcause : (handle cfg env m event).1.events event.key ≠ [] →
        hasFlag event Bpf.traceStart = true ∨ m.events event.key ≠ [])

/-- A stack that closes is counted or aggregated at the end of its sample, or neither. -/
theorem closing_cases {cfg : Config} (ha : cfg.adaptive = true) {event : GoftraceEvent} {v : View}
    (hclose : v.closes cfg event = true) :
    (hasFlag event Bpf.traceEnd = true ∧ (v.closing cfg event).isDiscarded.toNat +
        (v.closing cfg event).isAggregated.toNat = 1) ∨
      ((v.closing cfg event).isDiscarded = false ∧ (v.closing cfg event).isAggregated = false) := by
  unfold View.closes at hclose
  unfold View.closing
  cases hagg : cfg.aggregate with
  | true =>
    rw [hagg, ha] at hclose
    refine .inl ⟨hclose, ?_⟩
    simp only [if_true]
    split <;> rfl
  | false =>
    refine .inr ?_
    simp only [Bool.false_eq_true, if_false]
    split
    · exact ⟨rfl, rfl⟩
    · split
      · split <;> exact ⟨rfl, rfl⟩
      · exact ⟨rfl, rfl⟩

theorem admitted_events {cfg : Config} {event : GoftraceEvent} {v : View}
    (h : (v.admitted cfg event).events ≠ []) : v.events ≠ [] := by
  intro hnil
  refine h ?_
  unfold View.admitted View.reset
  split
  · split
    · rfl
    · exact hnil
  · exact hnil

/-- A retained event has a sample to belong to. -/
theorem retained_cause {cfg : Config} (ha : cfg.adaptive = true) {record : Event} {v v' : View}
    (h : View.Retained cfg record (v.admitted cfg record.goftraceEvent) v') :
    hasFlag record.goftraceEvent Bpf.traceStart = true ∨ v.events ≠ [] := by
  rcases retained_events ha h with ⟨hstarts, -⟩ | ⟨-, hne, -⟩
  · simp only [startsSample, Bool.and_eq_true] at hstarts
    exact .inl hstarts.2
  · exact .inr hne

theorem handle_verdict {cfg : Config} (ha : cfg.adaptive = true) (env : Env) (m : EventManager)
    (event : GoftraceEvent) : Verdict cfg env m event := by
  have hown := (ownCounts_eq ha env m event).1
  obtain ⟨hview, hout⟩ := handle_view cfg env m event
  have hevents : (handle cfg env m event).1.events event.key =
      ((handle cfg env m event).1.view event.key).events := rfl
  by_cases hexit : event.location = Bpf.goroutineExitPoint
  · have hover : overBudget cfg m event = false := by simp [overBudget, asksAdmission, hexit]
    have haborts : aborts cfg event = false := by simp [aborts, hexit]
    have hmachine : (m.view event.key).handle cfg (budgetFull cfg m event) event
        (argText cfg m event) = ({}, .exited) := if_pos hexit
    rw [hmachine] at hview hout
    rw [hout, haborts, hover] at hown
    refine .unsettled hown (by rw [hout]; rfl) fun hne => absurd ?_ hne
    rw [hevents, hview]
  by_cases hflag : hasFlag event Bpf.traceAbort = true
  · have hover : overBudget cfg m event = false := by simp [overBudget, asksAdmission, hflag]
    have haborts : aborts cfg event = true := by simp [aborts, hexit, ha, hflag]
    have hmachine : (m.view event.key).handle cfg (budgetFull cfg m event) event
        (argText cfg m event) = ({}, .aborted) := by
      rw [View.handle, if_neg hexit, ha, hflag]
      rfl
    rw [hmachine] at hview hout
    rw [hout, haborts, hover] at hown
    refine .settled (by rw [hown, hout]; rfl) (by rw [hevents, hview]) (.inr ?_) (.inl haborts)
    simp [endsSample, hflag]
  have haborts : aborts cfg event = false := by simp [aborts, hflag]
  by_cases hover : overBudget cfg m event = true
  · obtain ⟨hrejected, hempty⟩ := handle_overBudget env hover
    rw [hrejected, haborts, hover] at hown
    exact .settled (by rw [hown, hrejected]; rfl) hempty (.inl hover) (.inr (.inl hover))
  · rw [Bool.not_eq_true] at hover
    rw [haborts, hover, Bool.toNat_false, Nat.add_zero] at hown
    have hstep := handle_step cfg env m event
    generalize (handle cfg env m event).1.view event.key = v' at hstep hevents
    -- what is left of the outcome decides
    have hsame : (handle cfg env m event).2.isDiscarded = false →
        (handle cfg env m event).2.isAggregated = false →
        (v'.events ≠ [] → hasFlag event Bpf.traceStart = true ∨ m.events event.key ≠ []) →
        Verdict cfg env m event := by
      intro hdiscarded haggregated hcause
      refine .unsettled (by rw [hown, hdiscarded]; rfl) haggregated fun hne => hcause ?_
      rwa [hevents] at hne
    generalize ho : (handle cfg env m event).2 = outcome at hstep hsame
    cases hstep with
    | exited hloc => exact absurd hloc hexit
    | aborted _ h => exact absurd h hflag
    | suppressed _ _ _ => exact hsame rfl rfl .inr
    | overBudget _ _ => exact hsame rfl rfl fun hne => absurd rfl hne
    | unresolved _ => exact hsame rfl rfl fun hne => .inr (admitted_events hne)
    | unwanted _ _ => exact hsame rfl rfl fun hne => .inr (admitted_events hne)
    | kept _ hret _ => exact hsame rfl rfl fun _ => retained_cause ha hret
    | closed _ hret hclose =>
      have hcause := retained_cause ha hret
      rcases closing_cases ha hclose with ⟨hend, hsum⟩ | ⟨hdiscarded, haggregated⟩
      · refine .settled (by rw [hown, ho]; exact hsum) (by rw [hevents]; rfl) (.inr ?_)
          (.inr (.inr hcause))
        simp [endsSample, hend]
      · exact hsame hdiscarded haggregated fun _ => hcause

end GoFtrace.EventManager
