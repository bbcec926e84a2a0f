import GoFtrace.EventManager.Aggregation

/-!
# Accounting

In adaptive mode the pending counter is the number of retained events, every container is
bounded, and an eviction takes the least recently used process.

* `Balanced`: the counter and the sum of the lengths agree.
* `Recent`: `lastSeen` orders the processes by their last access.
* `handleAll_accounted`: both hold after every run.
-/

namespace GoFtrace.EventManager

open Lib Uprobe

/-! ## The pending counter -/

/-- The events retained for all processes. -/
def retainedTotal (m : EventManager) : Nat := FMap.total PidState.retained m.pids

theorem retainedTotal_setProcess (m : EventManager) (pid : UInt32) (s : PidState) :
    (m.setProcess pid s).retainedTotal + (m.process pid).retained =
      m.retainedTotal + s.retained := by
  have hold := FMap.total_eq_get_add PidState.retained m.pids pid (d := {}) rfl
  have hnew := FMap.total_insert PidState.retained m.pids pid s
  simp only [retainedTotal, setProcess, process]
  omega

theorem PidState.retained_setEvents (s : PidState) (goid : UInt64) (events : List Event) :
    (s.setEvents goid events).retained + (s.events goid).length =
      s.retained + events.length := by
  have hold := FMap.total_eq_get_add List.length s.goEvents goid (d := []) rfl
  have hnew := FMap.total_insert List.length s.goEvents goid events
  simp only [retained, setEvents, PidState.events]
  omega

theorem PidState.retained_drop (s : PidState) (goid : UInt64) :
    (s.drop goid).retained + (s.events goid).length = s.retained := by
  have hold := FMap.total_eq_get_add List.length s.goEvents goid (d := []) rfl
  simp only [retained, PidState.drop, PidState.events]
  omega

theorem PidState.retained_updateObservedStack (cfg : Config) (s : PidState)
    (event : GoftraceEvent) (probe : Uprobe) :
    (updateObservedStack cfg s event probe).retained = s.retained := by
  unfold updateObservedStack
  split
  · rfl
  · split
    · dsimp only
      split
      · rfl
      · split <;> rfl
    · rfl

/-- The pending counter is exact. -/
def Balanced (m : EventManager) : Prop := m.pendingEvents = m.retainedTotal

theorem balanced_dropStack {cfg : Config} (ha : cfg.adaptive = true) {m : EventManager}
    (k : TraceKey) (h : Balanced m) : Balanced (dropStack cfg m k) := by
  unfold dropStack
  cases hlook : m.pids.lookup k.pid with
  | none => exact h
  | some s =>
    have hproc := process_eq_of_lookup hlook
    have hset := retainedTotal_setProcess m k.pid (s.drop k.goid)
    have hdrop := PidState.retained_drop s k.goid
    rw [hproc] at hset
    have hpend : m.pendingEvents = m.retainedTotal := h
    simp only [ha, if_true]
    change m.pendingEvents - (s.events k.goid).length =
      (m.setProcess k.pid (s.drop k.goid)).retainedTotal
    omega

theorem pendingEvents_dropStack_le (cfg : Config) (m : EventManager) (k : TraceKey) :
    (dropStack cfg m k).pendingEvents ≤ m.pendingEvents := by
  unfold dropStack
  cases m.pids.lookup k.pid with
  | none => exact Nat.le_refl _
  | some s =>
    cases cfg.adaptive with
    | false => exact Nat.le_refl _
    | true => exact Nat.sub_le _ _

theorem retainedTotal_pidState (cfg : Config) (m : EventManager) (pid : UInt32) :
    (m.pidState cfg pid).retainedTotal +
        ((victim cfg m pid).map (·.2.retained)).getD 0 = m.retainedTotal := by
  have hown : PidState.retained { m.process pid with lastSeen := m.seq + 1 } =
      (m.process pid).retained := rfl
  have hset : ∀ pids : FMap UInt32 PidState, FMap.get pids {} pid = m.process pid →
      FMap.total PidState.retained (pids.insert pid { m.process pid with lastSeen := m.seq + 1 }) =
        FMap.total PidState.retained pids := by
    intro pids hget
    have hold := FMap.total_eq_get_add PidState.retained pids pid (d := {}) rfl
    rw [FMap.total_insert, hown, hold, hget]
  cases hv : victim cfg m pid with
  | none => simp [retainedTotal, pidState_eq, hv, hset m.pids rfl]
  | some v =>
    have hget : FMap.get (m.pids.erase v.1) {} pid = m.process pid :=
      FMap.get_erase_of_ne _ _ (Ne.symm (victim_ne hv))
    have herase := FMap.total_erase PidState.retained (victim_lookup hv)
    simp only [retainedTotal, pidState_eq, hv, Option.map_some, Option.getD_some, hset _ hget]
    omega

theorem balanced_pidState {cfg : Config} {m : EventManager} (pid : UInt32) (h : Balanced m) :
    Balanced (m.pidState cfg pid) := by
  have htotal := retainedTotal_pidState cfg m pid
  have hpend : (m.pidState cfg pid).pendingEvents =
      m.pendingEvents - ((victim cfg m pid).map (·.2.retained)).getD 0 := by
    rw [pidState_eq]
  have hm : m.pendingEvents = m.retainedTotal := h
  rw [Balanced]
  omega

theorem balanced_appendEvent {cfg : Config} (ha : cfg.adaptive = true) (env : Env)
    {m : EventManager} (event : GoftraceEvent) (probe : Uprobe) (h : Balanced m) :
    Balanced (appendEvent cfg env m event probe) := by
  obtain ⟨l, r, happend⟩ := appendEvent_eq cfg env m event probe
  have hins := PidState.retained_setEvents (m.process event.pid) event.goid
    ((m.process event.pid).events event.goid ++ [recordOf cfg m event probe])
  generalize hs : (m.process event.pid).setEvents event.goid
    ((m.process event.pid).events event.goid ++ [recordOf cfg m event probe]) = s at happend hins
  have hobs := PidState.retained_updateObservedStack cfg s event probe
  have hset := retainedTotal_setProcess m event.pid (updateObservedStack cfg s event probe)
  have hm : m.pendingEvents = m.retainedTotal := h
  rw [List.length_append, List.length_singleton] at hins
  rw [happend, if_pos ha]
  change m.pendingEvents + 1 =
    (m.setProcess event.pid (updateObservedStack cfg s event probe)).retainedTotal
  omega

theorem balanced_retain {cfg : Config} (ha : cfg.adaptive = true) (env : Env)
    {m : EventManager} (event : GoftraceEvent) (probe : Uprobe) (h : Balanced m) :
    Balanced (retain cfg env m event probe).1 := by
  unfold retain
  dsimp only
  split
  · split
    · exact h
    · split
      · exact h
      · exact balanced_appendEvent ha env event probe h
  · rename_i last hlast
    split
    · -- the duplicate takes the place of the last event
      have hne : (m.process event.pid).events event.goid ≠ [] := by
        intro hnil
        rw [hnil] at hlast
        cases hlast
      have hpos := List.length_pos_iff.mpr hne
      have hins := PidState.retained_setEvents (m.process event.pid) event.goid
        (((m.process event.pid).events event.goid).dropLast ++
          [{ last with goftraceEvent := event }])
      generalize (m.process event.pid).setEvents event.goid
        (((m.process event.pid).events event.goid).dropLast ++
          [{ last with goftraceEvent := event }]) = s at hins ⊢
      have hset := retainedTotal_setProcess m event.pid s
      have hm : m.pendingEvents = m.retainedTotal := h
      rw [List.length_append, List.length_dropLast, List.length_singleton] at hins
      change m.pendingEvents = (m.setProcess event.pid s).retainedTotal
      omega
    · exact balanced_appendEvent ha env event probe h

theorem balanced_setProcess {m : EventManager} {pid : UInt32} {s : PidState}
    (hs : s.retained = (m.process pid).retained) (h : Balanced m) :
    Balanced (m.setProcess pid s) := by
  have hset := retainedTotal_setProcess m pid s
  have hm : m.pendingEvents = m.retainedTotal := h
  change m.pendingEvents = (m.setProcess pid s).retainedTotal
  omega

/-! ## The budget -/

/-- The counter is exact and within the budget. -/
structure Budgeted (cfg : Config) (m : EventManager) : Prop where
  balanced : Balanced m
  le : m.pendingEvents ≤ cfg.maxPendingEvents

theorem pendingEvents_retain_le (cfg : Config) (env : Env) (m : EventManager)
    (event : GoftraceEvent) (probe : Uprobe) :
    (retain cfg env m event probe).1.pendingEvents ≤ m.pendingEvents + 1 := by
  have happend : (appendEvent cfg env m event probe).pendingEvents ≤ m.pendingEvents + 1 := by
    obtain ⟨l, r, happend⟩ := appendEvent_eq cfg env m event probe
    rw [happend]
    change (if cfg.adaptive = true then m.pendingEvents + 1 else m.pendingEvents) ≤ _
    split <;> omega
  unfold retain
  dsimp only
  split
  · split
    · exact Nat.le_succ _
    · split
      · exact Nat.le_succ _
      · exact happend
  · split
    · exact Nat.le_succ _
    · exact happend

theorem budgeted_stepwise {cfg : Config} (ha : cfg.adaptive = true) (env : Env)
    (event : GoftraceEvent) : Stepwise cfg env event (Budgeted cfg) where
  drop m h :=
    { balanced := balanced_dropStack ha event.key h.balanced
      le := (pendingEvents_dropStack_le cfg m event.key).trans h.le }
  count _ _ _ _ _ h := { balanced := h.balanced, le := h.le }
  unsuppress _ h := { balanced := h.balanced, le := h.le }
  suppress _ h := { balanced := h.balanced, le := h.le }
  pidState m h :=
    { balanced := balanced_pidState event.pid h.balanced
      le := (pendingEvents_pidState_le cfg m event.pid).trans h.le }
  retain m probe _ hlt h :=
    { balanced := balanced_retain ha env event probe h.balanced
      le := (pendingEvents_retain_le cfg env m event probe).trans (hlt ha) }
  record _ _ _ h :=
    { balanced := balanced_setProcess rfl h.balanced, le := h.le }

/-! ## Recency -/

/-- `lastSeen` counts the calls of `pidState` up to the last one for the process. -/
structure Recent (m : EventManager) : Prop where
  seq : m.seq = m.accesses.length
  size_le : FMap.size m.pids ≤ maxAggregatePIDs
  accessed : ∀ pid ∈ m.pids, pid ∈ m.accesses
  lastSeen : ∀ pid ∈ m.pids,
    (m.process pid).lastSeen + m.accesses.idxOf pid = m.accesses.length

theorem recent_setProcess {m : EventManager} {pid : UInt32} {s : PidState} (hp : pid ∈ m.pids)
    (hs : s.lastSeen = (m.process pid).lastSeen) (h : Recent m) :
    Recent (m.setProcess pid s) := by
  obtain ⟨s', hlook⟩ := Option.isSome_iff_exists.mp (AList.lookup_isSome.mpr hp)
  have hmem : ∀ q, q ∈ (m.setProcess pid s).pids → q ∈ m.pids := by
    intro q hq
    rcases AList.mem_insert m.pids |>.mp hq with rfl | hq
    · exact hp
    · exact hq
  refine ⟨h.seq, ?_, fun q hq => h.accessed q (hmem q hq), fun q hq => ?_⟩
  · exact (FMap.size_insert_of_some hlook).le.trans h.size_le
  · have hlast : ((m.setProcess pid s).process q).lastSeen = (m.process q).lastSeen := by
      by_cases hqp : q = pid
      · rw [hqp, process_setProcess, hs]
      · rw [process_setProcess_of_ne m s hqp]
    rw [hlast]
    exact h.lastSeen q (hmem q hq)

theorem PidState.lastSeen_updateObservedStack (cfg : Config) (s : PidState)
    (event : GoftraceEvent) (probe : Uprobe) :
    (updateObservedStack cfg s event probe).lastSeen = s.lastSeen := by
  unfold updateObservedStack
  split
  · rfl
  · split
    · dsimp only
      split
      · rfl
      · split <;> rfl
    · rfl

theorem recent_dropStack {cfg : Config} {m : EventManager} (k : TraceKey) (h : Recent m) :
    Recent (dropStack cfg m k) := by
  unfold dropStack
  cases hlook : m.pids.lookup k.pid with
  | none => exact h
  | some s =>
    have hp : k.pid ∈ m.pids := AList.lookup_isSome.mp (by simp [hlook])
    have hproc := process_eq_of_lookup hlook
    cases cfg.adaptive with
    | false =>
      refine recent_setProcess (m := m) hp ?_ h
      rw [hproc]
      rfl
    | true =>
      have hrel : Recent (m.release (s.events k.goid).length) :=
        ⟨h.seq, h.size_le, h.accessed, h.lastSeen⟩
      refine recent_setProcess (m := m.release (s.events k.goid).length) hp ?_ hrel
      rw [release_process, hproc]
      rfl

theorem recent_appendEvent {cfg : Config} (env : Env) {m : EventManager} {event : GoftraceEvent}
    (probe : Uprobe) (hp : event.pid ∈ m.pids) (h : Recent m) :
    Recent (appendEvent cfg env m event probe) := by
  obtain ⟨l, r, happend⟩ := appendEvent_eq cfg env m event probe
  rw [happend]
  refine recent_setProcess hp ?_ ⟨h.seq, h.size_le, h.accessed, h.lastSeen⟩
  rw [PidState.lastSeen_updateObservedStack]
  rfl

theorem recent_retain {cfg : Config} (env : Env) {m : EventManager} {event : GoftraceEvent}
    (probe : Uprobe) (hp : event.pid ∈ m.pids) (h : Recent m) :
    Recent (retain cfg env m event probe).1 := by
  unfold retain
  dsimp only
  split
  · split
    · exact h
    · split
      · exact h
      · exact recent_appendEvent env probe hp h
  · split
    · exact recent_setProcess hp rfl h
    · exact recent_appendEvent env probe hp h

theorem size_removeVictim {cfg : Config} {m : EventManager} {pid : UInt32}
    {v : UInt32 × PidState} (h : victim cfg m pid = some v) :
    FMap.size m.pids = 1 + FMap.size (m.pids.erase v.1) :=
  FMap.size_erase (victim_lookup h)

theorem oldestOf_isSome {o : UInt32 × PidState}
    {cs : List (Sigma fun _ : UInt32 => PidState)} : (oldestOf (some o) cs).isSome := by
  induction cs generalizing o with
  | nil => rfl
  | cons c cs ih =>
    rw [oldestOf]
    split <;> exact ih

/-- Without a victim there is room for one more process. -/
theorem size_lt_of_victim_none {cfg : Config} (ha : cfg.adaptive = true) {m : EventManager}
    {pid : UInt32} (hv : victim cfg m pid = none) (hp : m.pids.lookup pid = none) :
    FMap.size m.pids < maxAggregatePIDs := by
  by_contra hfull
  have hle := Nat.le_of_not_lt hfull
  have hold : oldestOf none m.pids.entries = none := by
    simpa [victim, hp, ha, hle] using hv
  cases hentries : m.pids.entries with
  | nil =>
    rw [FMap.size, hentries] at hle
    exact absurd hle (by decide)
  | cons c cs =>
    rw [hentries, oldestOf] at hold
    have hsome : (oldestOf (some (c.1, c.2)) cs).isSome := oldestOf_isSome
    rw [hold] at hsome
    cases hsome

theorem recent_pidState {cfg : Config} (ha : cfg.adaptive = true) {m : EventManager}
    (pid : UInt32) (h : Recent m) : Recent (m.pidState cfg pid) := by
  have hmem : ∀ q, q ∈ (m.pidState cfg pid).pids → q ≠ pid →
      q ∈ m.pids ∧ (m.pidState cfg pid).process q = m.process q := by
    intro q hq hne
    rw [pidState_process_of_ne cfg m hne]
    rw [pidState_eq] at hq
    cases hv : victim cfg m pid with
    | none =>
      simp only [hv, Option.map_none, Option.getD_none, AList.mem_insert, hne, false_or] at hq
      exact ⟨hq, by simp⟩
    | some v =>
      simp only [hv, Option.map_some, Option.getD_some, AList.mem_insert, hne, false_or,
        AList.mem_erase] at hq
      exact ⟨hq.2, by simp [Ne.symm hq.1]⟩
  have hacc : (m.pidState cfg pid).accesses = pid :: m.accesses := by rw [pidState_eq]
  refine ⟨?_, ?_, fun q hq => ?_, fun q hq => ?_⟩
  · rw [hacc, pidState_eq, List.length_cons, ← h.seq]
  · have hsize := h.size_le
    rw [pidState_eq]
    cases hv : victim cfg m pid with
    | some v =>
      have hvic := size_removeVictim hv
      have hle := FMap.size_erase_le (m.pids.erase v.1) pid
      simp only [Option.map_some, Option.getD_some, FMap.size_insert]
      omega
    | none =>
      simp only [Option.map_none, Option.getD_none]
      cases hlook : m.pids.lookup pid with
      | some s => rw [FMap.size_insert_of_some hlook]; exact hsize
      | none =>
        rw [FMap.size_insert_of_none hlook]
        exact size_lt_of_victim_none ha hv hlook
  · rw [hacc]
    by_cases hne : q = pid
    · rw [hne]
      exact List.mem_cons_self
    · exact List.mem_cons_of_mem _ (h.accessed q (hmem q hq hne).1)
  · rw [hacc]
    by_cases hne : q = pid
    · subst hne
      rw [pidState_process, List.idxOf_cons_self, List.length_cons, ← h.seq]
    · obtain ⟨hq', hproc⟩ := hmem q hq hne
      have hlast := h.lastSeen q hq'
      rw [hproc, List.idxOf_cons_ne _ (Ne.symm hne), List.length_cons]
      omega

theorem recent_stepwise {cfg : Config} (ha : cfg.adaptive = true) (env : Env)
    (event : GoftraceEvent) : Stepwise cfg env event Recent where
  drop _ h := recent_dropStack event.key h
  count _ _ _ _ _ h := ⟨h.seq, h.size_le, h.accessed, h.lastSeen⟩
  unsuppress _ h := ⟨h.seq, h.size_le, h.accessed, h.lastSeen⟩
  suppress _ h := ⟨h.seq, h.size_le, h.accessed, h.lastSeen⟩
  pidState _ h := recent_pidState ha event.pid h
  retain _ probe hp _ h := recent_retain env probe hp h
  record _ _ hp h := recent_setProcess hp rfl h

/-! ## The victim -/

theorem oldestOf_le {o : Option (UInt32 × PidState)}
    {cs : List (Sigma fun _ : UInt32 => PidState)} {v : UInt32 × PidState}
    (h : oldestOf o cs = some v) :
    (∀ b, o = some b → v.2.lastSeen ≤ b.2.lastSeen) ∧ ∀ c ∈ cs, v.2.lastSeen ≤ c.2.lastSeen := by
  induction cs generalizing o with
  | nil =>
    refine ⟨fun b hb => ?_, fun c hc => absurd hc List.not_mem_nil⟩
    subst hb
    cases h
    exact Nat.le_refl _
  | cons c cs ih =>
    cases o with
    | none =>
      obtain ⟨hc, hcs⟩ := ih h
      refine ⟨fun b hb => (by cases hb), fun d hd => ?_⟩
      rcases List.mem_cons.mp hd with rfl | hd
      · exact hc _ rfl
      · exact hcs d hd
    | some o =>
      rw [oldestOf] at h
      split at h
      · rename_i hlt
        obtain ⟨hc, hcs⟩ := ih h
        have hv := hc _ rfl
        refine ⟨fun b hb => ?_, fun d hd => ?_⟩
        · cases hb
          exact Nat.le_of_lt (lt_of_le_of_lt hv hlt)
        · rcases List.mem_cons.mp hd with rfl | hd
          · exact hv
          · exact hcs d hd
      · rename_i hlt
        obtain ⟨hc, hcs⟩ := ih h
        have hv := hc _ rfl
        refine ⟨fun b hb => ?_, fun d hd => ?_⟩
        · cases hb
          exact hv
        · rcases List.mem_cons.mp hd with rfl | hd
          · exact hv.trans (Nat.le_of_not_lt hlt)
          · exact hcs d hd

theorem victim_lastSeen_le {cfg : Config} {m : EventManager} {pid : UInt32}
    {v : UInt32 × PidState} (h : victim cfg m pid = some v) {q : UInt32} (hq : q ∈ m.pids) :
    v.2.lastSeen ≤ (m.process q).lastSeen := by
  obtain ⟨s, hs⟩ := Option.isSome_iff_exists.mp (AList.lookup_isSome.mpr hq)
  rw [process_eq_of_lookup hs]
  unfold victim at h
  split at h
  · exact (oldestOf_le h).2 ⟨q, s⟩ (AList.mem_lookup_iff.mp hs)
  · cases h

/-- A process that was seen no later than `q` was accessed before it. -/
theorem Recent.idxOf_lt {m : EventManager} (hm : Recent m) {p q : UInt32} (hp : p ∈ m.pids)
    (hq : q ∈ m.pids) (hne : q ≠ p) (hle : (m.process p).lastSeen ≤ (m.process q).lastSeen) :
    m.accesses.idxOf q < m.accesses.idxOf p := by
  have hlp := hm.lastSeen p hp
  have hlq := hm.lastSeen q hq
  have hidx : m.accesses.idxOf q ≠ m.accesses.idxOf p := fun heq =>
    hne (List.idxOf_inj (hm.accessed q hq) |>.mp heq)
  omega

/-- What a call of `Handle` for an event of `k` evicts. -/
inductive Eviction (k : TraceKey) (m m' : EventManager) : Prop
  /-- No process goes. -/
  | none (hcount : m'.evictedPIDs = m.evictedPIDs) (hkeep : ∀ pid ∈ m.pids, pid ∈ m'.pids)
  /-- One process goes: the one accessed longest ago, with its suppressed keys. -/
  | one (victim : UInt32) (hcount : m'.evictedPIDs = m.evictedPIDs + 1)
      (hmem : victim ∈ m.pids) (hnew : k.pid ∉ m.pids)
      (holdest : ∀ pid ∈ m.pids, pid ≠ victim → m.accesses.idxOf pid < m.accesses.idxOf victim)
      (hpids : ∀ pid, pid ≠ k.pid → (pid ∈ m'.pids ↔ pid ∈ m.pids ∧ pid ≠ victim))
      (hkeep : ∀ pid, pid ≠ k.pid → pid ≠ victim → m'.process pid = m.process pid)
      (hsuppressed : ∀ key, key ≠ k →
        (key ∈ m'.suppressed ↔ key ∈ m.suppressed ∧ key.pid ≠ victim))

theorem handle_eviction (cfg : Config) (env : Env) {m : EventManager} (hm : Recent m)
    (event : GoftraceEvent) : Eviction event.key m (handle cfg env m event).1 := by
  obtain ⟨m₁, m₂, hfirst, haction, hlast⟩ := handle_local cfg env m event
  have hkeep : ∀ pid ∈ m.pids, pid ∈ m₁.pids := by
    intro pid hp
    by_cases heq : pid = event.key.pid
    · subst heq
      exact hfirst.present hp
    · exact (hfirst.pids pid heq).mpr hp
  have hkeep' : ∀ pid ∈ m₂.pids, pid ∈ (handle cfg env m event).1.pids := by
    intro pid hp
    by_cases heq : pid = event.key.pid
    · subst heq
      exact hlast.present hp
    · exact (hlast.pids pid heq).mpr hp
  cases haction with
  | none =>
    exact .none (hlast.evictedPIDs.trans hfirst.evictedPIDs) fun pid hp => hkeep' pid (hkeep pid hp)
  | overBudget _ clear =>
    exact .none (hlast.evictedPIDs.trans hfirst.evictedPIDs) fun pid hp => hkeep' pid (hkeep pid hp)
  | evict hv =>
    rename_i v
    have hne : v.1 ≠ event.key.pid := victim_ne hv
    have hlook := victim_lookup hv
    have hv₁ : v.1 ∈ m₁.pids := AList.lookup_isSome.mp (by simp [hlook])
    have hmem : v.1 ∈ m.pids := (hfirst.pids v.1 hne).mp hv₁
    have hnew₁ : event.key.pid ∉ m₁.pids := by
      intro hp
      obtain ⟨s, hs⟩ := Option.isSome_iff_exists.mp (AList.lookup_isSome.mpr hp)
      simp [victim, hs] at hv
    have hnew : event.key.pid ∉ m.pids := fun hp => hnew₁ (hfirst.present hp)
    have hothers : ∀ pid, pid ≠ event.key.pid →
        (pid ∈ (handle cfg env m event).1.pids ↔ pid ∈ m.pids ∧ pid ≠ v.1) := by
      intro pid hp
      rw [hlast.pids pid hp, ← hfirst.pids pid hp]
      simp [removeProcess, AList.mem_erase, and_comm]
    refine .one v.1 ?_ hmem hnew (fun pid hp hpv => ?_) hothers (fun pid hp hpv => ?_)
      (fun key hkey => ?_)
    · rw [hlast.evictedPIDs, ← hfirst.evictedPIDs]
      rfl
    · have hpk : pid ≠ event.key.pid := fun heq => hnew (heq ▸ hp)
      have hle := victim_lastSeen_le hv (hkeep pid hp)
      rw [hfirst.process pid hpk] at hle
      refine hm.idxOf_lt hmem hp hpv ?_
      rwa [← hfirst.process v.1 hne, process_eq_of_lookup hlook]
    · rw [hlast.process pid hp, ← hfirst.process pid hp]
      exact FMap.get_erase_of_ne m₁.pids {} hpv
    · rw [hlast.suppressed key hkey, ← hfirst.suppressed key hkey]
      simp [removeProcess]

/-! ## Stacks -/

/-- The observed stack of a goroutine is no longer than its events, and only a goroutine
with events is invalid. -/
structure View.Covered (v : View) : Prop where
  stack_le : v.stack.length ≤ v.events.length
  invalid : v.invalid = true → v.events ≠ []

namespace View

variable {cfg : Config} {v : View}

theorem Covered.empty (suppressed : Bool) : Covered { suppressed := suppressed } :=
  ⟨Nat.le_refl _, fun h => absurd h Bool.false_ne_true⟩

theorem Covered.setSuppressed (h : v.Covered) (b : Bool) : Covered { v with suppressed := b } :=
  ⟨h.stack_le, h.invalid⟩

theorem Covered.append (h : v.Covered) (record : Event) : (v.append cfg record).Covered := by
  have hlen : (v.events ++ [record]).length = v.events.length + 1 := by simp
  have hle := h.stack_le
  have hne : v.events ++ [record] ≠ [] := by simp
  unfold View.append observe
  split
  · refine ⟨?_, fun _ => hne⟩
    simp only [List.length_cons, hlen]
    omega
  · split
    · split
      · exact ⟨by simp only [hlen]; omega, fun _ => hne⟩
      · refine ⟨?_, fun _ => hne⟩
        simp only [List.length_tail, hlen]
        omega
    · exact ⟨by simp only [hlen]; omega, fun _ => hne⟩

theorem Covered.replace (h : v.Covered) {last : Event} (hlast : v.events.getLast? = some last)
    (event : GoftraceEvent) : (v.replace last event).Covered := by
  have hne : v.events ≠ [] := by
    intro hnil
    rw [hnil] at hlast
    cases hlast
  have hpos := List.length_pos_iff.mpr hne
  have hle := h.stack_le
  refine ⟨?_, fun _ => by simp [View.replace]⟩
  simp only [View.replace, List.length_append, List.length_dropLast, List.length_singleton]
  omega

theorem stable_covered (cfg : Config) : Stable cfg (fun _ => True) Covered where
  empty := Covered.empty
  suppress _ b _ h := h.setSuppressed b
  retain record v v' _ _ hret h := by
    cases hret with
    | append hfirst hdup => exact h.append record
    | replace hlast hdup => exact h.replace hlast record.goftraceEvent

end View

/-- The total length of the observed stacks. -/
def stackTotal (m : EventManager) : Nat :=
  FMap.total (fun s => FMap.total List.length s.goEventStack) m.pids

theorem stackTotal_le {m : EventManager} (h : ∀ k, (m.view k).Covered) :
    m.stackTotal ≤ m.retainedTotal := by
  refine FMap.total_le_total {} {} rfl rfl fun pid => ?_
  refine FMap.total_le_total [] [] rfl rfl fun goid => ?_
  exact (h { pid := pid, goid := goid }).stack_le

theorem invalid_mem {m : EventManager} (h : ∀ k, (m.view k).Covered) {pid : UInt32}
    {s : PidState} (hs : m.pids.lookup pid = some s) {goid : UInt64} (hg : goid ∈ s.invalid) :
    goid ∈ s.goEvents := by
  have hproc := process_eq_of_lookup hs
  have hcov := (h { pid := pid, goid := goid }).invalid
    (by simpa [view, EventManager.invalid, hproc] using hg)
  by_contra hnot
  apply hcov
  change (m.process pid).events goid = []
  rw [hproc, PidState.events, FMap.get, AList.lookup_eq_none.mpr hnot]
  rfl

/-! ## Entries -/

/-- A goroutine has entries in the maps of its process only while it has events. -/
structure PidState.Tidy (s : PidState) : Prop where
  events : ∀ goid ∈ s.goEvents, s.events goid ≠ []
  stack : ∀ goid ∈ s.goEventStack, goid ∈ s.goEvents

namespace PidState

theorem Tidy.empty (lastSeen : Nat) : Tidy { lastSeen := lastSeen } :=
  ⟨fun goid h => absurd h (AList.notMem_empty goid),
    fun goid h => absurd h (AList.notMem_empty goid)⟩

theorem Tidy.drop {s : PidState} (h : s.Tidy) (goid : UInt64) : (s.drop goid).Tidy where
  events g hg := by
    obtain ⟨hne, hmem⟩ := AList.mem_erase.mp hg
    have hget : (s.drop goid).events g = s.events g := FMap.get_erase_of_ne _ _ hne
    rw [hget]
    exact h.events g hmem
  stack g hg := by
    obtain ⟨hne, hmem⟩ := AList.mem_erase.mp hg
    exact AList.mem_erase.mpr ⟨hne, h.stack g hmem⟩

theorem Tidy.setEvents {s : PidState} (h : s.Tidy) (goid : UInt64) {events : List Event}
    (hne : events ≠ []) : (s.setEvents goid events).Tidy where
  events g hg := by
    by_cases hgoid : g = goid
    · subst hgoid
      rw [events_setEvents]
      exact hne
    · have hget : (s.setEvents goid events).events g = s.events g :=
        FMap.get_insert_of_ne _ _ _ hgoid
      rw [hget]
      exact h.events g ((AList.mem_insert _).mp hg |>.resolve_left hgoid)
  stack g hg := (AList.mem_insert _).mpr (.inr (h.stack g hg))

theorem Tidy.setStack {s : PidState} (h : s.Tidy) {goid : UInt64} (hmem : goid ∈ s.goEvents)
    (stack : List UInt64) : (s.setStack goid stack).Tidy where
  events g hg := h.events g hg
  stack g hg := by
    rcases (AList.mem_insert _).mp hg with rfl | hg
    · exact hmem
    · exact h.stack g hg

theorem Tidy.updateObservedStack {s : PidState} (h : s.Tidy) (cfg : Config)
    {event : GoftraceEvent} (hmem : event.goid ∈ s.goEvents) (probe : Uprobe) :
    (updateObservedStack cfg s event probe).Tidy := by
  unfold EventManager.updateObservedStack
  split
  · exact h.setStack hmem _
  · split
    · dsimp only
      split
      · exact ⟨h.events, h.stack⟩
      · split
        · exact h
        · exact h.setStack hmem _
    · exact h

end PidState

/-- Every process is tidy. -/
def Tidy (m : EventManager) : Prop := ∀ pid, (m.process pid).Tidy

theorem tidy_setProcess {m : EventManager} {pid : UInt32} {s : PidState} (hs : s.Tidy)
    (h : Tidy m) : Tidy (m.setProcess pid s) := by
  intro q
  by_cases hq : q = pid
  · subst hq
    rw [process_setProcess]
    exact hs
  · rw [process_setProcess_of_ne m s hq]
    exact h q

theorem tidy_appendEvent (cfg : Config) (env : Env) {m : EventManager} (event : GoftraceEvent)
    (probe : Uprobe) (h : Tidy m) : Tidy (appendEvent cfg env m event probe) := by
  obtain ⟨l, r, happend⟩ := appendEvent_eq cfg env m event probe
  rw [happend]
  refine tidy_setProcess ?_ h
  refine ((h event.pid).setEvents event.goid (by simp)).updateObservedStack cfg ?_ probe
  exact (AList.mem_insert _).mpr (.inl rfl)

theorem tidy_stepwise (cfg : Config) (env : Env) (event : GoftraceEvent) :
    Stepwise cfg env event Tidy where
  drop m h := by
    unfold dropStack
    cases hlook : m.pids.lookup event.key.pid with
    | none => exact h
    | some s =>
      have hs : s.Tidy := process_eq_of_lookup hlook ▸ h event.key.pid
      refine tidy_setProcess (hs.drop event.key.goid) ?_
      cases cfg.adaptive <;> exact h
  count _ _ _ _ _ h := h
  unsuppress _ h := h
  suppress _ h := h
  pidState m h := by
    intro q
    by_cases hq : q = event.pid
    · subst hq
      rw [pidState_process]
      exact ⟨(h event.pid).events, (h event.pid).stack⟩
    · rw [pidState_process_of_ne cfg m hq]
      split
      · exact PidState.Tidy.empty 0
      · exact h q
  retain m probe _ _ h := by
    unfold retain
    dsimp only
    split
    · split
      · exact h
      · split
        · exact h
        · exact tidy_appendEvent cfg env event probe h
    · split
      · exact tidy_setProcess ((h event.pid).setEvents event.goid (by simp)) h
      · exact tidy_appendEvent cfg env event probe h
  record m calls _ h :=
    tidy_setProcess ⟨(h event.pid).events, (h event.pid).stack⟩ h

/-- A goroutine without events has no entry anywhere. -/
theorem Tidy.notMem {m : EventManager} (h : Tidy m) {k : TraceKey} (hk : m.events k = []) :
    k.goid ∉ (m.process k.pid).goEvents ∧ k.goid ∉ (m.process k.pid).goEventStack := by
  have hevents : k.goid ∉ (m.process k.pid).goEvents :=
    fun hmem => (h k.pid).events k.goid hmem hk
  exact ⟨hevents, fun hmem => hevents ((h k.pid).stack k.goid hmem)⟩

/-! ## Suppressed keys and return values -/

/-- The set of suppressed keys is bounded. -/
def SuppressedBound (m : EventManager) : Prop := m.suppressed.card ≤ maxAggregateSuppressed

theorem suppressedBound_stepwise (cfg : Config) (env : Env) (event : GoftraceEvent) :
    Stepwise cfg env event SuppressedBound where
  drop m h := by
    rw [SuppressedBound, dropStack_suppressed]
    exact h
  count _ _ _ _ _ h := h
  unsuppress m h := (Finset.card_erase_le).trans h
  suppress m h := by
    have h1 : 1 ≤ maxAggregateSuppressed := by decide
    refine (Finset.card_insert_le _ _).trans ?_
    split
    · simpa using h1
    · omega
  pidState m h := by
    rw [SuppressedBound, pidState_eq]
    exact (Finset.card_filter_le _ _).trans h
  retain m probe _ _ h := by
    have happend : (appendEvent cfg env m event probe).suppressed = m.suppressed := by
      obtain ⟨l, r, happend⟩ := appendEvent_eq cfg env m event probe
      rw [happend]
      rfl
    rw [SuppressedBound]
    unfold retain
    dsimp only
    split
    · split
      · exact h
      · split
        · exact h
        · rw [happend]; exact h
    · split
      · exact h
      · rw [happend]; exact h
  record _ _ _ h := h

/-- The table of return values of each function is bounded. -/
def FuncAgg.Bound (agg : FuncAgg) : Prop := FMap.size agg.retvals ≤ maxAggregateRetvals

theorem size_recordRetval (order : MapOrder) (retval : String) (weight : Nat)
    {retvals : FMap String RetvalCount} (h : FMap.size retvals ≤ maxAggregateRetvals) :
    FMap.size (recordRetval order retval weight retvals) ≤ maxAggregateRetvals := by
  have hcases := recordRetval_cases order retval weight retvals
  generalize recordRetval order retval weight retvals = retvals' at hcases ⊢
  cases hcases with
  | update hlook =>
    rw [FMap.size_insert_of_some hlook]
    exact h
  | fresh hlook hroom =>
    rw [FMap.size_insert_of_none hlook]
    exact hroom
  | replace hlook _ hvalue _ =>
    have herase := FMap.size_erase hvalue
    rw [FMap.size_insert_of_none (lookup_erase_of_none _ hlook)]
    omega

/-- The tables of every function of every process are bounded. -/
def RetvalsBound (m : EventManager) : Prop :=
  ∀ pid fn, (FMap.get (m.process pid).agg {} fn).Bound

theorem bound_empty : ({} : FuncAgg).Bound := Nat.zero_le _

theorem FuncAgg.Bound.record {agg : FuncAgg} (h : agg.Bound) (order : MapOrder)
    (call : AggCall) : (agg.record order call).Bound := by
  unfold FuncAgg.record Bound
  dsimp only
  split
  · exact size_recordRetval order _ _ h
  · exact h

theorem bound_recordAll (order : MapOrder) (calls : List AggCall) {agg : FMap String FuncAgg}
    (h : ∀ fn, (FMap.get agg {} fn).Bound) (fn : String) :
    (FMap.get (calls.foldl (recordAgg order) agg) {} fn).Bound := by
  induction calls generalizing agg with
  | nil => exact h fn
  | cons call calls ih =>
    refine ih fun fn' => ?_
    by_cases heq : fn' = call.funcname
    · subst heq
      rw [recordAgg, FMap.get_insert_self]
      exact (h call.funcname).record order call
    · rw [recordAgg, FMap.get_insert_of_ne _ _ _ heq]
      exact h fn'

theorem RetvalsBound.handle {cfg : Config} (env : Env) {m : EventManager}
    (event : GoftraceEvent) (h : RetvalsBound m) : RetvalsBound (handle cfg env m event).1 := by
  intro pid fn
  by_cases hpid : pid = event.pid
  · subst hpid
    rw [handle_agg]
    exact bound_recordAll env.order _ (h event.pid) fn
  · by_cases hp : pid ∈ (EventManager.handle cfg env m event).1.pids
    · rw [handle_agg_of_ne cfg env m hpid hp]
      exact h pid fn
    · rw [process_eq_default (AList.lookup_eq_none.mpr hp)]
      exact bound_empty

/-! ## Every run -/

/-- What holds of the state after every call in adaptive mode. -/
structure Accounted (cfg : Config) (m : EventManager) : Prop where
  pendingEvents : m.pendingEvents = m.retainedTotal
  pendingEvents_le : m.pendingEvents ≤ cfg.maxPendingEvents
  stack_le : m.stackTotal ≤ m.pendingEvents
  invalid : ∀ pid s, m.pids.lookup pid = some s → ∀ goid ∈ s.invalid, goid ∈ s.goEvents
  pids_le : FMap.size m.pids ≤ maxAggregatePIDs
  suppressed_le : m.suppressed.card ≤ maxAggregateSuppressed
  retvals_le : ∀ pid s, m.pids.lookup pid = some s → ∀ fn agg, s.agg.lookup fn = some agg →
    FMap.size agg.retvals ≤ maxAggregateRetvals

/-- The invariants of a run, before the totals are taken. -/
structure Invariants (cfg : Config) (m : EventManager) : Prop where
  budgeted : Budgeted cfg m
  recent : Recent m
  covered : ∀ k, (m.view k).Covered
  suppressed : SuppressedBound m
  retvals : RetvalsBound m

theorem invariants_init (cfg : Config) : Invariants cfg {} where
  budgeted := { balanced := rfl, le := Nat.zero_le _ }
  recent :=
    { seq := rfl, size_le := Nat.zero_le _
      accessed := fun pid hp => absurd hp (AList.notMem_empty pid)
      lastSeen := fun pid hp => absurd hp (AList.notMem_empty pid) }
  covered _ := View.Covered.empty false
  suppressed := Nat.zero_le _
  retvals _ _ := bound_empty

theorem Invariants.handle {cfg : Config} (ha : cfg.adaptive = true) (env : Env)
    {m : EventManager} (event : GoftraceEvent) (h : Invariants cfg m) :
    Invariants cfg (handle cfg env m event).1 where
  budgeted := (budgeted_stepwise ha env event).handle h.budgeted
  recent := (recent_stepwise ha env event).handle h.recent
  covered := (View.stable_covered cfg).handle env m trivial h.covered
  suppressed := (suppressedBound_stepwise cfg env event).handle h.suppressed
  retvals := h.retvals.handle env event

theorem Invariants.accounted {cfg : Config} {m : EventManager} (h : Invariants cfg m) :
    Accounted cfg m where
  pendingEvents := h.budgeted.balanced
  pendingEvents_le := h.budgeted.le
  stack_le := (stackTotal_le h.covered).trans h.budgeted.balanced.ge
  invalid _ _ hs _ hg := invalid_mem h.covered hs hg
  pids_le := h.recent.size_le
  suppressed_le := h.suppressed
  retvals_le pid s hs fn agg hagg := by
    have hbound := h.retvals pid fn
    rw [process_eq_of_lookup hs, FMap.get, hagg] at hbound
    exact hbound

theorem invariants_handleAll {cfg : Config} (ha : cfg.adaptive = true)
    (arrivals : List (GoftraceEvent × Env)) :
    Invariants cfg (handleAll cfg {} arrivals).1 :=
  handleAll_induction (fun env _ event h => h.handle ha env event) arrivals (invariants_init cfg)

/-- After every call the counter is exact, every container is bounded, and the next call
evicts the least recently used process or none. -/
theorem handleAll_accounted {cfg : Config} (ha : cfg.adaptive = true)
    (arrivals : List (GoftraceEvent × Env)) :
    Accounted cfg (handleAll cfg {} arrivals).1 ∧
      ∀ env event, Eviction event.key (handleAll cfg {} arrivals).1
        (handle cfg env (handleAll cfg {} arrivals).1 event).1 := by
  have h := invariants_handleAll ha arrivals
  exact ⟨h.accounted, fun env event => handle_eviction cfg env h.recent event⟩

/-- Two samples, one of them still open. -/
theorem handleAll_accounted_open :
    Accounted (sampleConfig true)
        (handleAll (sampleConfig true) {} (sampleArrivals
          [sampleStart 0, sampleEnd 0, sampleStart 1])).1 ∧
      ∀ env event, Eviction event.key
        (handleAll (sampleConfig true) {} (sampleArrivals
          [sampleStart 0, sampleEnd 0, sampleStart 1])).1
        (handle (sampleConfig true) env (handleAll (sampleConfig true) {} (sampleArrivals
          [sampleStart 0, sampleEnd 0, sampleStart 1])).1 event).1 :=
  handleAll_accounted rfl _

end GoFtrace.EventManager
