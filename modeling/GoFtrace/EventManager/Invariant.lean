import GoFtrace.EventManager.Local

/-!
# Invariants of a call

A property that the operations of `Handle` preserve is preserved by `Handle`, and holds
after every run.

* `Uncounted.add`: the rule for `Add`.
* `Stepwise.handle`: the rule for one call.
* `handleAll_induction`: the rule for a run.
-/

namespace GoFtrace.EventManager

open Lib Uprobe

/-- What an invariant needs of the operations that record no call. -/
structure Uncounted (cfg : Config) (env : Env) (event : GoftraceEvent)
    (P : EventManager → Prop) : Prop where
  drop : ∀ m, P m → P (dropStack cfg m event.key)
  count : ∀ m n₁ n₂ n₃ n₄, P m → P { m with
    droppedStacks := n₁, droppedIncomplete := n₂, droppedAborted := n₃, droppedOverBudget := n₄ }
  unsuppress : ∀ m, P m → P { m with suppressed := m.suppressed.erase event.key }
  suppress : ∀ m, P m → P { m with
    suppressed := insert event.key
      (if maxAggregateSuppressed ≤ m.suppressed.card then ∅ else m.suppressed) }
  pidState : ∀ m, P m → P (m.pidState cfg event.pid)
  retain : ∀ m probe, event.pid ∈ m.pids →
    (cfg.adaptive = true → m.pendingEvents < cfg.maxPendingEvents) → P m →
    P (retain cfg env m event probe).1

theorem pendingEvents_pidState_le (cfg : Config) (m : EventManager) (pid : UInt32) :
    (m.pidState cfg pid).pendingEvents ≤ m.pendingEvents := by
  rw [pidState_eq]
  exact Nat.sub_le _ _

/-- An admitted event finds room in the budget. -/
theorem admission_lt {cfg : Config} {m : EventManager} {event : GoftraceEvent}
    (h : (admission cfg m event).2 = true) (ha : cfg.adaptive = true) :
    (admission cfg m event).1.pendingEvents < cfg.maxPendingEvents := by
  unfold admission at h ⊢
  simp only [ha, Bool.not_true, Bool.false_eq_true, if_false] at h ⊢
  split
  · rename_i hs
    rw [if_pos hs] at h
    cases h
  · rename_i hs
    rw [if_neg hs] at h
    split
    · rename_i hf
      rw [if_pos hf] at h
      cases h
    · rename_i hf
      exact Nat.lt_of_not_le hf

namespace Uncounted

variable {cfg : Config} {env : Env} {event : GoftraceEvent} {P : EventManager → Prop}

theorem countIncomplete (h : Uncounted cfg env event P) {m : EventManager} (hm : P m) :
    P (EventManager.countIncomplete m) :=
  h.count m _ _ _ _ hm

theorem resetStaleSample (h : Uncounted cfg env event P) {m : EventManager} (hm : P m) :
    P (EventManager.resetStaleSample cfg m event) := by
  unfold EventManager.resetStaleSample
  split
  · exact h.countIncomplete (h.drop m hm)
  · exact hm

theorem unsuppressed (h : Uncounted cfg env event P) {m : EventManager} (hm : P m) :
    P (EventManager.unsuppress m event) := by
  unfold EventManager.unsuppress
  split
  · exact h.unsuppress m hm
  · exact hm

theorem rejectOverBudget (h : Uncounted cfg env event P) {m : EventManager} (hm : P m) :
    P (EventManager.rejectOverBudget cfg m event) := by
  have hdrop := h.drop m hm
  unfold EventManager.rejectOverBudget
  cases hasFlag event Bpf.traceEnd with
  | true => exact h.count _ _ _ _ _ hdrop
  | false => exact h.count _ _ _ _ _ (h.suppress _ hdrop)

theorem admission (h : Uncounted cfg env event P) {m : EventManager} (hm : P m) :
    P (EventManager.admission cfg m event).1 := by
  have hfree := h.unsuppressed (h.resetStaleSample hm)
  unfold EventManager.admission
  split
  · exact hm
  · dsimp only
    split
    · exact hfree
    · split
      · exact h.rejectOverBudget hfree
      · exact hfree

/-- What `Add` preserves. -/
theorem add (h : Uncounted cfg env event P) {m : EventManager} (hm : P m) :
    P (EventManager.add cfg env m event).1 := by
  have hadmit := h.admission hm
  have hlt : (EventManager.admission cfg m event).2 = true → cfg.adaptive = true →
      (EventManager.admission cfg m event).1.pendingEvents < cfg.maxPendingEvents :=
    admission_lt
  unfold EventManager.add
  generalize EventManager.admission cfg m event = r at hadmit hlt
  obtain ⟨m', ok⟩ := r
  cases ok with
  | false => exact hadmit
  | true =>
    simp only [Bool.not_true, Bool.false_eq_true, if_false]
    cases cfg.getUprobe event.ip with
    | none => exact hadmit
    | some probe =>
      exact h.retain _ probe (pidState_present cfg m' event.pid)
        (fun ha => lt_of_le_of_lt (pendingEvents_pidState_le cfg m' event.pid) (hlt rfl ha))
        (h.pidState m' hadmit)

end Uncounted

/-- What an invariant of this module needs of the operations on the goroutine of an
event. -/
structure Stepwise (cfg : Config) (env : Env) (event : GoftraceEvent)
    (P : EventManager → Prop) : Prop extends Uncounted cfg env event P where
  record : ∀ m calls, event.pid ∈ m.pids → P m →
    P (m.setProcess event.pid ((m.process event.pid).recordAll env.order calls))

namespace Stepwise

variable {cfg : Config} {env : Env} {event : GoftraceEvent} {P : EventManager → Prop}

theorem closeAggregate (h : Stepwise cfg env event P) {m : EventManager} (hm : P m) :
    P (EventManager.closeAggregate cfg env m event.key).1 := by
  have hseen := h.pidState m hm
  unfold EventManager.closeAggregate
  dsimp only
  split
  · exact h.countIncomplete hseen
  · exact h.record _ _ (pidState_present cfg _ event.pid) (h.pidState _ hseen)

theorem closeStack (h : Stepwise cfg env event P) {m : EventManager} (hm : P m) :
    P (EventManager.closeStack cfg env m event).1 := by
  have hseen := h.pidState m hm
  unfold EventManager.closeStack
  dsimp only
  split
  · exact hseen
  · refine h.drop _ ?_
    split
    · exact h.closeAggregate hseen
    · unfold closePrint
      split
      · exact h.pidState _ hseen
      · split
        · split
          · exact h.pidState _ hseen
          · exact hseen
        · exact hseen

/-- An invariant of the operations is an invariant of `Handle`. -/
theorem handle (h : Stepwise cfg env event P) {m : EventManager} (hm : P m) :
    P (EventManager.handle cfg env m event).1 := by
  have hexit := h.drop _ (h.unsuppress m hm)
  unfold EventManager.handle
  split
  · exact hexit
  · split
    · exact h.count _ _ _ _ _ hexit
    · have hadd := h.add hm
      generalize EventManager.add cfg env m event = r at hadd ⊢
      obtain ⟨m', ok⟩ := r
      dsimp only
      split
      · exact hadd
      · exact h.closeStack hadd

end Stepwise

/-- An invariant of `Handle` holds after every run. -/
theorem handleAll_induction {cfg : Config} {P : EventManager → Prop}
    (hstep : ∀ env m event, P m → P (handle cfg env m event).1)
    (arrivals : List (GoftraceEvent × Env)) {m : EventManager} (hm : P m) :
    P (handleAll cfg m arrivals).1 := by
  induction arrivals generalizing m with
  | nil => exact hm
  | cons arrival arrivals ih => exact ih (hstep arrival.2 m arrival.1 hm)

end GoFtrace.EventManager
