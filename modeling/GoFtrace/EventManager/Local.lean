import GoFtrace.EventManager.Goroutine

/-!
# What an event leaves alone

`Handle` works on the goroutine of its event. Other goroutines are touched by two actions
only: the release of all suppressed keys and the eviction of a process. At most one of the
two happens during one call.

* `handle_local`: a call of `Handle` around its one global action.
* `handle_view_of_ne`: the manager, seen from another key.
-/

namespace GoFtrace.EventManager

open Lib Uprobe

/-- `m'` differs from `m` in the goroutine `k` and in counters that are not compared. -/
structure Local (k : TraceKey) (m m' : EventManager) : Prop where
  present : k.pid ∈ m.pids → k.pid ∈ m'.pids
  pids : ∀ pid, pid ≠ k.pid → (pid ∈ m'.pids ↔ pid ∈ m.pids)
  process : ∀ pid, pid ≠ k.pid → m'.process pid = m.process pid
  goroutine : ∀ goid suppressed, goid ≠ k.goid →
    (m'.process k.pid).view goid suppressed = (m.process k.pid).view goid suppressed
  suppressed : ∀ k', k' ≠ k → (k' ∈ m'.suppressed ↔ k' ∈ m.suppressed)
  droppedOverBudget : m'.droppedOverBudget = m.droppedOverBudget
  evictedPIDs : m'.evictedPIDs = m.evictedPIDs

namespace Local

variable {k : TraceKey} {m m' m'' : EventManager}

theorem refl (k : TraceKey) (m : EventManager) : Local k m m where
  present h := h
  pids _ _ := Iff.rfl
  process _ _ := rfl
  goroutine _ _ _ := rfl
  suppressed _ _ := Iff.rfl
  droppedOverBudget := rfl
  evictedPIDs := rfl

theorem trans (h : Local k m m') (h' : Local k m' m'') : Local k m m'' where
  present hp := h'.present (h.present hp)
  pids pid hp := (h'.pids pid hp).trans (h.pids pid hp)
  process pid hp := (h'.process pid hp).trans (h.process pid hp)
  goroutine goid sup hg := (h'.goroutine goid sup hg).trans (h.goroutine goid sup hg)
  suppressed k' hk := (h'.suppressed k' hk).trans (h.suppressed k' hk)
  droppedOverBudget := h'.droppedOverBudget.trans h.droppedOverBudget
  evictedPIDs := h'.evictedPIDs.trans h.evictedPIDs

/-- Another key sees no difference. -/
theorem view_eq (h : Local k m m') {k' : TraceKey} (hk : k' ≠ k) : m'.view k' = m.view k' := by
  have hsup : decide (k' ∈ m'.suppressed) = decide (k' ∈ m.suppressed) :=
    decide_eq_decide.mpr (h.suppressed k' hk)
  rw [EventManager.view_eq, EventManager.view_eq, hsup]
  by_cases hp : k'.pid = k.pid
  · have hg : k'.goid ≠ k.goid := by
      intro hg
      apply hk
      cases k
      cases k'
      simp_all
    rw [hp]
    exact h.goroutine k'.goid _ hg
  · rw [h.process k'.pid hp]

end Local

/-! ## Operations on one goroutine -/

/-- Replacing the state of the process of `k` by one that agrees on other goroutines. -/
theorem Local.setProcess {k : TraceKey} {m : EventManager} {s : PidState}
    (h : ∀ goid suppressed, goid ≠ k.goid →
      s.view goid suppressed = (m.process k.pid).view goid suppressed) :
    Local k m (m.setProcess k.pid s) where
  present _ := by simp [EventManager.setProcess, AList.mem_insert]
  pids pid hp := by simp [EventManager.setProcess, AList.mem_insert, hp]
  process pid hp := process_setProcess_of_ne m s hp
  goroutine goid sup hg := by rw [process_setProcess]; exact h goid sup hg
  suppressed _ _ := Iff.rfl
  droppedOverBudget := rfl
  evictedPIDs := rfl

/-- Changing the suppression of `k` only. -/
theorem Local.setSuppressed {k : TraceKey} {m : EventManager} {s : Finset TraceKey}
    (h : ∀ k', k' ≠ k → (k' ∈ s ↔ k' ∈ m.suppressed)) :
    Local k m { m with suppressed := s } where
  present h := h
  pids _ _ := Iff.rfl
  process _ _ := rfl
  goroutine _ _ _ := rfl
  suppressed := h
  droppedOverBudget := rfl
  evictedPIDs := rfl

theorem local_erase_suppressed (k : TraceKey) (m : EventManager) :
    Local k m { m with suppressed := m.suppressed.erase k } :=
  Local.setSuppressed fun k' hk => by simp [hk]

theorem local_dropStack (cfg : Config) (m : EventManager) (k : TraceKey) :
    Local k m (dropStack cfg m k) := by
  unfold dropStack
  cases h : m.pids.lookup k.pid with
  | none => exact Local.refl k m
  | some s =>
    have hproc := process_eq_of_lookup h
    have hset : ∀ m' : EventManager, m'.process k.pid = s →
        Local k m' (m'.setProcess k.pid (s.drop k.goid)) := by
      intro m' hm'
      refine Local.setProcess fun goid sup hg => ?_
      rw [hm']
      simp [PidState.view, PidState.drop, PidState.events, PidState.stack,
        FMap.get_erase_of_ne _ _ hg, hg]
    cases cfg.adaptive with
    | false => exact hset m hproc
    | true =>
      have hrel : Local k m (m.release (s.events k.goid).length) :=
        { present := fun h => h, pids := fun _ _ => Iff.rfl, process := fun _ _ => rfl
          goroutine := fun _ _ _ => rfl, suppressed := fun _ _ => Iff.rfl
          droppedOverBudget := rfl, evictedPIDs := rfl }
      exact hrel.trans (hset _ hproc)

theorem local_countIncomplete (k : TraceKey) (m : EventManager) :
    Local k m (countIncomplete m) where
  present h := h
  pids _ _ := Iff.rfl
  process _ _ := rfl
  goroutine _ _ _ := rfl
  suppressed _ _ := Iff.rfl
  droppedOverBudget := rfl
  evictedPIDs := rfl

theorem local_resetStaleSample (cfg : Config) (m : EventManager) (event : GoftraceEvent) :
    Local event.key m (resetStaleSample cfg m event) := by
  unfold resetStaleSample
  split
  · exact (local_dropStack cfg m event.key).trans (local_countIncomplete event.key _)
  · exact Local.refl _ _

theorem local_unsuppress (m : EventManager) (event : GoftraceEvent) :
    Local event.key m (unsuppress m event) := by
  unfold unsuppress
  split
  · exact local_erase_suppressed event.key m
  · exact Local.refl _ _

theorem local_appendEvent (cfg : Config) (env : Env) (m : EventManager) (event : GoftraceEvent)
    (probe : Uprobe) : Local event.key m (appendEvent cfg env m event probe) := by
  obtain ⟨l, r, happend⟩ := appendEvent_eq cfg env m event probe
  rw [happend]
  have hlearn : Local event.key m
      { m with
        learned := l
        typeRecipes := r
        pendingEvents := if cfg.adaptive then m.pendingEvents + 1 else m.pendingEvents } :=
    { present := fun h => h, pids := fun _ _ => Iff.rfl, process := fun _ _ => rfl
      goroutine := fun _ _ _ => rfl, suppressed := fun _ _ => Iff.rfl
      droppedOverBudget := rfl, evictedPIDs := rfl }
  refine hlearn.trans (Local.setProcess fun goid sup hg => ?_)
  rw [PidState.view_updateObservedStack_of_ne cfg _ event probe sup hg]
  exact PidState.view_setEvents_of_ne _ _ sup hg

theorem local_retain (cfg : Config) (env : Env) (m : EventManager) (event : GoftraceEvent)
    (probe : Uprobe) : Local event.key m (retain cfg env m event probe).1 := by
  unfold retain
  dsimp only
  split
  · split
    · exact Local.refl _ _
    · split
      · exact Local.refl _ _
      · exact local_appendEvent cfg env m event probe
  · split
    · exact Local.setProcess fun goid sup hg => PidState.view_setEvents_of_ne _ _ sup hg
    · exact local_appendEvent cfg env m event probe

/-! ## Global actions -/

/-- The removal of a process by `pidState`. -/
def removeProcess (m : EventManager) (v : UInt32 × PidState) : EventManager :=
  { m with
    pids := m.pids.erase v.1
    suppressed := m.suppressed.filter fun key => key.pid ≠ v.1
    pendingEvents := m.pendingEvents - v.2.retained
    evictedPIDs := m.evictedPIDs + 1 }

/-- The rejection of a sample over the budget, before its own key is suppressed. -/
def freeSuppressed (m : EventManager) (clear : Bool) : EventManager :=
  { m with
    suppressed := if clear then ∅ else m.suppressed
    droppedStacks := m.droppedStacks + 1
    droppedOverBudget := m.droppedOverBudget + 1 }

/-- The action of a call of `Handle` that other goroutines may notice. -/
inductive GlobalAction (cfg : Config) (k : TraceKey) (m : EventManager) : EventManager → Prop
  | none : GlobalAction cfg k m m
  | overBudget (ha : cfg.adaptive = true) (clear : Bool) :
      GlobalAction cfg k m (freeSuppressed m clear)
  | evict {v} (h : victim cfg m k.pid = some v) : GlobalAction cfg k m (removeProcess m v)

theorem pidState_action (cfg : Config) (m : EventManager) (k : TraceKey) :
    ∃ m', GlobalAction cfg k m m' ∧ Local k m' (m.pidState cfg k.pid) := by
  have hlocal : ∀ m' : EventManager, m'.process k.pid = m.process k.pid →
      (∀ pid, pid ≠ k.pid → (pid ∈ (m.pidState cfg k.pid).pids ↔ pid ∈ m'.pids)) →
      (∀ pid, pid ≠ k.pid → (m.pidState cfg k.pid).process pid = m'.process pid) →
      (m.pidState cfg k.pid).suppressed = m'.suppressed →
      (m.pidState cfg k.pid).droppedOverBudget = m'.droppedOverBudget →
      (m.pidState cfg k.pid).evictedPIDs = m'.evictedPIDs → Local k m' (m.pidState cfg k.pid) := by
    intro m' hproc hpids hother hsup hdrop hevict
    refine ⟨fun _ => ?_, hpids, hother, fun goid sup _ => ?_, fun k' _ => by rw [hsup], hdrop,
      hevict⟩
    · simp [pidState_eq, AList.mem_insert]
    · rw [pidState_process, hproc]
      rfl
  cases hv : victim cfg m k.pid with
  | none =>
    refine ⟨m, .none, hlocal m rfl (fun pid hp => ?_) (fun pid hp => ?_) ?_ ?_ ?_⟩
    · simp [pidState_eq, hv, AList.mem_insert, hp]
    · simp [pidState_process_of_ne cfg m hp, hv]
    · simp [pidState_eq, hv]
    · simp [pidState_eq]
    · simp [pidState_eq, hv]
  | some v =>
    have hne := victim_ne hv
    refine ⟨removeProcess m v, .evict hv,
      hlocal _ ?_ (fun pid hp => ?_) (fun pid hp => ?_) ?_ ?_ ?_⟩
    · exact FMap.get_erase_of_ne m.pids {} (Ne.symm hne)
    · simp [pidState_eq, hv, AList.mem_insert, hp, removeProcess]
    · rw [pidState_process_of_ne cfg m hp, hv]
      by_cases heq : v.1 = pid
      · subst heq
        simpa [removeProcess, process] using (FMap.get_erase_self m.pids {} v.1).symm
      · simpa [heq, removeProcess, process] using
          (FMap.get_erase_of_ne m.pids {} (Ne.symm heq)).symm
    · simp [pidState_eq, hv, removeProcess]
    · simp [pidState_eq, removeProcess]
    · simp [pidState_eq, hv, removeProcess]

/-- A process that is present is only seen again. -/
theorem local_pidState {cfg : Config} {m : EventManager} {k : TraceKey} (h : k.pid ∈ m.pids) :
    Local k m (m.pidState cfg k.pid) := by
  obtain ⟨m', haction, hlocal⟩ := pidState_action cfg m k
  cases haction with
  | none => exact hlocal
  | overBudget _ clear =>
    have hv : victim cfg m k.pid = none := by
      obtain ⟨s, hs⟩ := Option.isSome_iff_exists.mp (AList.lookup_isSome.mpr h)
      simp [victim, hs]
    have := hlocal.droppedOverBudget
    simp [pidState_eq, freeSuppressed] at this
  | evict hv =>
    obtain ⟨s, hs⟩ := Option.isSome_iff_exists.mp (AList.lookup_isSome.mpr h)
    simp [victim, hs] at hv

theorem rejectOverBudget_action (cfg : Config) (m : EventManager) (event : GoftraceEvent) :
    ∃ clear, Local event.key (freeSuppressed (dropStack cfg m event.key) clear)
      (rejectOverBudget cfg m event) := by
  unfold rejectOverBudget
  cases hasFlag event Bpf.traceEnd with
  | true => exact ⟨false, Local.refl _ _⟩
  | false =>
    refine ⟨decide (maxAggregateSuppressed ≤ (dropStack cfg m event.key).suppressed.card),
      Local.setSuppressed fun k' hk => ?_⟩
    simp [freeSuppressed, hk]

/-! ## Handling an event -/

theorem admission_local {cfg : Config} {m : EventManager} {event : GoftraceEvent}
    (h : (admission cfg m event).2 = true) : Local event.key m (admission cfg m event).1 := by
  have hfree := (local_resetStaleSample cfg m event).trans
    (local_unsuppress (resetStaleSample cfg m event) event)
  unfold admission at h ⊢
  split
  · exact Local.refl _ _
  · rename_i ha
    rw [if_neg ha] at h
    dsimp only at h ⊢
    split
    · rename_i hs
      rw [if_pos hs] at h
      cases h
    · rename_i hs
      rw [if_neg hs] at h
      split
      · rename_i hf
        rw [if_pos hf] at h
        cases h
      · exact hfree

theorem admission_action (cfg : Config) (m : EventManager) (event : GoftraceEvent) :
    ∃ m₁ m₂, Local event.key m m₁ ∧ GlobalAction cfg event.key m₁ m₂ ∧
      Local event.key m₂ (admission cfg m event).1 := by
  have hreset := local_resetStaleSample cfg m event
  have hfree := hreset.trans (local_unsuppress (resetStaleSample cfg m event) event)
  unfold admission
  split
  · exact ⟨m, m, Local.refl _ _, .none, Local.refl _ _⟩
  · rename_i ha
    dsimp only
    split
    · exact ⟨_, _, hfree, .none, Local.refl _ _⟩
    · split
      · obtain ⟨clear, hrej⟩ := rejectOverBudget_action cfg
          (unsuppress (resetStaleSample cfg m event) event) event
        exact ⟨_, _, hfree.trans (local_dropStack cfg _ event.key),
          .overBudget (by simpa using ha) clear, hrej⟩
      · exact ⟨_, _, hfree, .none, Local.refl _ _⟩

theorem pidState_present (cfg : Config) (m : EventManager) (pid : UInt32) :
    pid ∈ (m.pidState cfg pid).pids := by
  simp [pidState_eq, AList.mem_insert]

theorem local_recordAll (m : EventManager) (k : TraceKey) (order : MapOrder)
    (calls : List AggCall) :
    Local k m (m.setProcess k.pid ((m.process k.pid).recordAll order calls)) :=
  Local.setProcess fun _ _ _ => rfl

theorem local_closeAggregate {cfg : Config} (env : Env) {m : EventManager} {k : TraceKey}
    (h : k.pid ∈ m.pids) : Local k m (closeAggregate cfg env m k).1 := by
  have hseen : Local k m (m.pidState cfg k.pid) := local_pidState h
  unfold closeAggregate
  dsimp only
  split
  · exact hseen.trans (local_countIncomplete k _)
  · have hseen' : Local k (m.pidState cfg k.pid) ((m.pidState cfg k.pid).pidState cfg k.pid) :=
      local_pidState (hseen.present h)
    exact (hseen.trans hseen').trans (local_recordAll _ k _ _)

theorem local_closePrint {cfg : Config} {m : EventManager} {event : GoftraceEvent}
    (h : event.pid ∈ m.pids) : Local event.key m (closePrint cfg m event).1 := by
  have hseen : Local event.key m (m.pidState cfg event.pid) := local_pidState h
  unfold closePrint
  split
  · exact hseen
  · split
    · split
      · exact hseen
      · exact Local.refl _ _
    · exact Local.refl _ _

theorem local_closeStack {cfg : Config} (env : Env) {m : EventManager} {event : GoftraceEvent}
    (h : event.pid ∈ m.pids) : Local event.key m (closeStack cfg env m event).1 := by
  have hseen : Local event.key m (m.pidState cfg event.pid) := local_pidState h
  have hpid := hseen.present h
  unfold closeStack
  dsimp only
  split
  · exact hseen
  · refine (hseen.trans ?_).trans (local_dropStack cfg _ event.key)
    split
    · exact local_closeAggregate env hpid
    · exact local_closePrint hpid

/-- A call of `Handle` works on its goroutine before and after at most one global
action. -/
theorem handle_local (cfg : Config) (env : Env) (m : EventManager) (event : GoftraceEvent) :
    ∃ m₁ m₂, Local event.key m m₁ ∧ GlobalAction cfg event.key m₁ m₂ ∧
      Local event.key m₂ (handle cfg env m event).1 := by
  have hexit := (local_erase_suppressed event.key m).trans (local_dropStack cfg _ event.key)
  unfold handle
  split
  · exact ⟨_, _, hexit, .none, Local.refl _ _⟩
  · split
    · refine ⟨_, _, hexit, .none, ?_⟩
      exact { present := fun h => h, pids := fun _ _ => Iff.rfl, process := fun _ _ => rfl
              goroutine := fun _ _ _ => rfl, suppressed := fun _ _ => Iff.rfl
              droppedOverBudget := rfl, evictedPIDs := rfl }
    · have hadmit := admission_action cfg m event
      have hlocal : (admission cfg m event).2 = true →
          Local event.key m (admission cfg m event).1 := admission_local
      unfold add
      generalize admission cfg m event = r at hadmit hlocal
      obtain ⟨m', ok⟩ := r
      cases ok with
      | false => exact hadmit
      | true =>
        simp only [Bool.not_true, Bool.false_eq_true, if_false]
        cases cfg.getUprobe event.ip with
        | none => exact hadmit
        | some probe =>
          obtain ⟨m₂, haction, hseen⟩ := pidState_action cfg m' event.key
          have hret := local_retain cfg env (m'.pidState cfg event.pid) event probe
          refine ⟨m', m₂, hlocal rfl, haction, hseen.trans ?_⟩
          dsimp only
          split
          · exact hret
          · exact hret.trans
              (local_closeStack env (hret.present (pidState_present cfg m' event.pid)))

/-! ## Other goroutines -/

/-- What another goroutine may notice of a call of `Handle`. -/
inductive OtherEffect (m m' : EventManager) (v : View) : View → Prop
  | same : OtherEffect m m' v v
  /-- All suppressed keys were released. -/
  | freed (h : m.droppedOverBudget < m'.droppedOverBudget) :
      OtherEffect m m' v { v with suppressed := false }
  /-- Its process was evicted. -/
  | evicted (h : m.evictedPIDs < m'.evictedPIDs) : OtherEffect m m' v {}

/-- `Handle`, seen from another key. -/
theorem handle_view_of_ne (cfg : Config) (env : Env) (m : EventManager) {event : GoftraceEvent}
    {k : TraceKey} (h : k ≠ event.key) :
    OtherEffect m (handle cfg env m event).1 (m.view k) ((handle cfg env m event).1.view k) := by
  obtain ⟨m₁, m₂, hfirst, haction, hlast⟩ := handle_local cfg env m event
  rw [hlast.view_eq h, ← hfirst.view_eq h]
  cases haction with
  | none => exact .same
  | overBudget _ clear =>
    cases clear with
    | false => exact .same
    | true =>
      refine .freed ?_
      rw [hlast.droppedOverBudget, ← hfirst.droppedOverBudget]
      exact Nat.lt_succ_self _
  | evict hv =>
    rename_i v
    by_cases hp : v.1 = k.pid
    · have hview : (removeProcess m₁ v).view k = {} := by
        have hproc : (removeProcess m₁ v).process k.pid = {} := by
          rw [← hp]
          exact FMap.get_erase_self m₁.pids {} v.1
        have hsup : k ∉ (removeProcess m₁ v).suppressed := by
          simp [removeProcess, hp]
        rw [view_eq, hproc, decide_eq_false hsup]
        rfl
      rw [hview]
      refine .evicted ?_
      rw [hlast.evictedPIDs, ← hfirst.evictedPIDs]
      exact Nat.lt_succ_self _
    · have hview : (removeProcess m₁ v).view k = m₁.view k := by
        refine view_congr (FMap.get_erase_of_ne m₁.pids {} (Ne.symm hp)) ?_
        simp [removeProcess, Ne.symm hp]
      rw [hview]
      exact .same

/-- With one process there is no eviction: another goroutine keeps its events. -/
theorem handle_events_of_single (cfg : Config) (env : Env) (m : EventManager)
    {event : GoftraceEvent} (hpids : ∀ pid ∈ m.pids, pid = event.pid) {k : TraceKey}
    (hk : k ≠ event.key) :
    (handle cfg env m event).1.events k = m.events k ∧
      ∀ pid ∈ (handle cfg env m event).1.pids, pid = event.pid := by
  obtain ⟨m₁, m₂, hfirst, haction, hlast⟩ := handle_local cfg env m event
  have hpids₁ : ∀ pid ∈ m₁.pids, pid = event.pid := by
    intro pid hpid
    by_contra hne
    exact hne (hpids pid ((hfirst.pids pid hne).mp hpid))
  have hevents : (handle cfg env m event).1.events k = m₂.events k :=
    congrArg View.events (hlast.view_eq hk)
  have hevents₁ : m₁.events k = m.events k := congrArg View.events (hfirst.view_eq hk)
  have hpids₂ : (∀ pid ∈ m₂.pids, pid = event.pid) →
      ∀ pid ∈ (handle cfg env m event).1.pids, pid = event.pid := by
    intro h pid hpid
    by_contra hne
    exact hne (h pid ((hlast.pids pid hne).mp hpid))
  cases haction with
  | none => exact ⟨hevents.trans hevents₁, hpids₂ hpids₁⟩
  | overBudget _ clear => exact ⟨hevents.trans hevents₁, hpids₂ hpids₁⟩
  | @evict v hv =>
    have hmem : v.1 ∈ m₁.pids := AList.lookup_isSome.mp (by rw [victim_lookup hv]; rfl)
    exact absurd (hpids₁ v.1 hmem) (victim_ne hv)

end GoFtrace.EventManager
