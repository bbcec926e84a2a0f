import GoFtrace.EventManager.Local

/-!
# The cases of a call

What one call of `Handle` does to the goroutine of its event, one case for each way
through the source, and the rule for properties of a goroutine that every call preserves.

* `View.handle_cases`: the cases.
* `Stable.handle`: a stable property of all goroutines survives a call.
-/

namespace GoFtrace.EventManager

open Lib Uprobe

namespace View

/-- The state of a goroutine once its event is admitted. -/
def admitted (cfg : Config) (event : GoftraceEvent) (v : View) : View :=
  if cfg.adaptive then { v.reset event with suppressed := false } else v

theorem admitted_suppressed {cfg : Config} (event : GoftraceEvent) {v : View}
    (ha : cfg.adaptive = true) : (v.admitted cfg event).suppressed = false := by
  rw [admitted, if_pos ha]

/-- Whether `Add` takes the event as the first one of a stack. -/
def opensStack (cfg : Config) (event : GoftraceEvent) : Bool :=
  event.location == Bpf.entPoint && (!cfg.adaptive || hasFlag event Bpf.traceStart)

/-- The last retained event with the data of a repeated entry. -/
def replace (last : Event) (event : GoftraceEvent) (v : View) : View :=
  { v with events := v.events.dropLast ++ [{ last with goftraceEvent := event }] }

/-- How an event is retained. -/
inductive Retained (cfg : Config) (record : Event) (v : View) : View → Prop
  | append (hfirst : v.events = [] → opensStack cfg record.goftraceEvent = true)
      (hdup : ∀ last, v.events.getLast? = some last →
        isDuplicate last record.goftraceEvent = false) :
      Retained cfg record v (v.append cfg record)
  | replace {last : Event} (hlast : v.events.getLast? = some last)
      (hdup : isDuplicate last record.goftraceEvent = true) :
      Retained cfg record v (v.replace last record.goftraceEvent)

/-- What a call does to the goroutine of its event. -/
inductive Step (cfg : Config) (full : Bool) (event : GoftraceEvent) (argString : String)
    (v : View) : View → Outcome → Prop
  | exited (hloc : event.location = Bpf.goroutineExitPoint) :
      Step cfg full event argString v {} .exited
  | aborted (ha : cfg.adaptive = true) (hflag : hasFlag event Bpf.traceAbort = true) :
      Step cfg full event argString v {} .aborted
  /-- The rest of a suppressed sample. -/
  | suppressed (ha : cfg.adaptive = true) (hs : v.suppressed = true)
      (hstart : hasFlag event Bpf.traceStart = false) :
      Step cfg full event argString v
        { v with suppressed := !hasFlag event Bpf.traceEnd } .rejected
  | overBudget (ha : cfg.adaptive = true) (hfull : full = true) :
      Step cfg full event argString v
        { suppressed := !hasFlag event Bpf.traceEnd } .rejected
  /-- No probe is known for the address. -/
  | unresolved (hprobe : cfg.getUprobe event.ip = none) :
      Step cfg full event argString v (v.admitted cfg event) .rejected
  /-- The event cannot be the first of a stack. -/
  | unwanted (hempty : (v.admitted cfg event).events = [])
      (hopen : opensStack cfg event = false) :
      Step cfg full event argString v (v.admitted cfg event) .rejected
  /-- The event is retained and the stack stays open. -/
  | kept {probe : Uprobe} {v' : View} (hprobe : cfg.getUprobe event.ip = some probe)
      (hret : Retained cfg { goftraceEvent := event, uprobe := probe, argString := argString }
        (v.admitted cfg event) v')
      (hopen : v'.closes cfg event = false) :
      Step cfg full event argString v v' .kept
  /-- The event is retained and closes the stack. -/
  | closed {probe : Uprobe} {v' : View} (hprobe : cfg.getUprobe event.ip = some probe)
      (hret : Retained cfg { goftraceEvent := event, uprobe := probe, argString := argString }
        (v.admitted cfg event) v')
      (hclose : v'.closes cfg event = true) :
      Step cfg full event argString v v'.clear (v'.closing cfg event)

/-- What becomes of an event that `Add` sees. -/
inductive Added (cfg : Config) (full : Bool) (event : GoftraceEvent) (argString : String)
    (v : View) : View → Bool → Prop
  | refused {v'} (h : Step cfg full event argString v v' .rejected) :
      Added cfg full event argString v v' false
  | retained {probe : Uprobe} {v' : View} (hprobe : cfg.getUprobe event.ip = some probe)
      (hret : Retained cfg { goftraceEvent := event, uprobe := probe, argString := argString }
        (v.admitted cfg event) v') :
      Added cfg full event argString v v' true

theorem retain_cases {cfg : Config} {full : Bool} {event : GoftraceEvent} {argString : String}
    {v : View} {probe : Uprobe} (hprobe : cfg.getUprobe event.ip = some probe) :
    let record : Event := { goftraceEvent := event, uprobe := probe, argString := argString }
    Added cfg full event argString v ((v.admitted cfg event).retain cfg record).1
      ((v.admitted cfg event).retain cfg record).2 := by
  intro record
  generalize hv : v.admitted cfg event = w
  unfold retain
  dsimp only
  cases hlast : w.events.getLast? with
  | none =>
    have hempty : w.events = [] := List.getLast?_eq_none_iff.mp hlast
    dsimp only
    by_cases hloc : event.location = Bpf.entPoint
    · rw [if_neg (not_not.mpr hloc)]
      by_cases hstart : (cfg.adaptive && !hasFlag event Bpf.traceStart) = true
      · rw [if_pos hstart]
        have hopen : opensStack cfg event = false := by
          simp only [Bool.and_eq_true, Bool.not_eq_true'] at hstart
          simp [opensStack, hstart.1, hstart.2]
        subst hv
        exact .refused (.unwanted hempty hopen)
      · rw [if_neg hstart]
        have hopen : opensStack cfg event = true := by
          simp only [Bool.and_eq_true, Bool.not_eq_true', not_and, Bool.not_eq_false] at hstart
          cases ha : cfg.adaptive <;> simp_all [opensStack]
        refine .retained hprobe ?_
        rw [hv]
        exact .append (fun _ => hopen) (fun last h => by rw [hlast] at h; cases h)
    · rw [if_pos hloc]
      have hopen : opensStack cfg event = false := by simp [opensStack, hloc]
      subst hv
      exact .refused (.unwanted hempty hopen)
  | some last =>
    dsimp only
    split
    · rename_i hdup
      refine .retained hprobe ?_
      rw [hv]
      exact .replace hlast hdup
    · rename_i hdup
      have hne : w.events = [] → opensStack cfg event = true := by
        intro hnil
        rw [hnil] at hlast
        cases hlast
      refine .retained hprobe ?_
      rw [hv]
      refine .append hne fun last' h => ?_
      rw [hlast] at h
      cases h
      exact Bool.eq_false_iff.mpr hdup

theorem admission_cases (cfg : Config) (full : Bool) (event : GoftraceEvent) (v : View) :
    v.admission cfg full event = (v.admitted cfg event, true) ∨
      (cfg.adaptive = true ∧ v.suppressed = true ∧ hasFlag event Bpf.traceStart = false ∧
        v.admission cfg full event =
          ({ v with suppressed := !hasFlag event Bpf.traceEnd }, false)) ∨
      (cfg.adaptive = true ∧ full = true ∧
        v.admission cfg full event = ({ suppressed := !hasFlag event Bpf.traceEnd }, false)) := by
  unfold View.admission admitted
  cases ha : cfg.adaptive with
  | false => exact .inl rfl
  | true =>
    simp only [Bool.not_true, Bool.false_eq_true, if_false, if_true, true_and]
    by_cases hs : ((v.reset event).suppressed && !hasFlag event Bpf.traceStart) = true
    · rw [if_pos hs]
      simp only [Bool.and_eq_true, Bool.not_eq_true'] at hs
      have hreset : v.reset event = v := by simp [reset, hs.2]
      rw [hreset] at hs ⊢
      exact .inr (.inl ⟨hs.1, hs.2, rfl⟩)
    · rw [if_neg hs]
      cases full with
      | true => exact .inr (.inr ⟨rfl, rfl⟩)
      | false => exact .inl rfl

theorem add_cases (cfg : Config) (full : Bool) (event : GoftraceEvent) (argString : String)
    (v : View) :
    Added cfg full event argString v (v.add cfg full event argString).1
      (v.add cfg full event argString).2 := by
  unfold add
  rcases admission_cases cfg full event v with h | ⟨ha, hs, hstart, h⟩ | ⟨ha, hfull, h⟩
  · rw [h]
    simp only [Bool.not_true, Bool.false_eq_true, if_false]
    cases hprobe : cfg.getUprobe event.ip with
    | none => exact .refused (.unresolved hprobe)
    | some probe => exact retain_cases hprobe
  · rw [h]
    exact .refused (.suppressed ha hs hstart)
  · rw [h]
    exact .refused (.overBudget ha hfull)

/-- The cases of a call. -/
theorem handle_cases (cfg : Config) (full : Bool) (event : GoftraceEvent) (argString : String)
    (v : View) :
    Step cfg full event argString v (v.handle cfg full event argString).1
      (v.handle cfg full event argString).2 := by
  have hadd := add_cases cfg full event argString v
  unfold handle
  by_cases hloc : event.location = Bpf.goroutineExitPoint
  · rw [if_pos hloc]
    exact .exited hloc
  · rw [if_neg hloc]
    by_cases habort : (cfg.adaptive && hasFlag event Bpf.traceAbort) = true
    · rw [if_pos habort]
      simp only [Bool.and_eq_true] at habort
      exact .aborted habort.1 habort.2
    · rw [if_neg habort]
      generalize v.add cfg full event argString = r at hadd ⊢
      obtain ⟨v', ok⟩ := r
      cases hadd with
      | refused h => exact h
      | retained hprobe hret =>
        simp only [Bool.not_true, Bool.false_eq_true, if_false]
        cases hclose : v'.closes cfg event with
        | false => exact .kept hprobe hret hclose
        | true => exact .closed hprobe hret hclose

end View

/-- The goroutine of the event goes through one of the cases. -/
theorem handle_step (cfg : Config) (env : Env) (m : EventManager) (event : GoftraceEvent) :
    View.Step cfg (budgetFull cfg m event) event (argText cfg m event) (m.view event.key)
      ((handle cfg env m event).1.view event.key) (handle cfg env m event).2 := by
  obtain ⟨hview, hout⟩ := handle_view cfg env m event
  rw [hview, hout]
  exact View.handle_cases cfg _ event _ _

/-- A property of one goroutine that the cases keep, and that neither a released suppression
nor a lost process affects, survives a call for all goroutines. -/
theorem handle_goroutines {cfg : Config} {P : View → Prop} (hempty : P {})
    (hfreed : ∀ v, P v → P { v with suppressed := false })
    (hstep : ∀ full event argString v v' outcome,
      View.Step cfg full event argString v v' outcome → P v → P v')
    (env : Env) (m : EventManager) (event : GoftraceEvent) (hm : ∀ k, P (m.view k))
    (k : TraceKey) : P ((handle cfg env m event).1.view k) := by
  by_cases hk : k = event.key
  · subst hk
    exact hstep _ _ _ _ _ _ (handle_step cfg env m event) (hm event.key)
  · have heffect := handle_view_of_ne cfg env m hk
    generalize (handle cfg env m event).1.view k = v' at heffect ⊢
    cases heffect with
    | same => exact hm k
    | freed _ => exact hfreed _ (hm k)
    | evicted _ => exact hempty

/-! ## Stable properties -/

/-- A property of a goroutine that `Handle` of events with the property `Q` keeps. -/
structure Stable (cfg : Config) (Q : GoftraceEvent → Prop) (P : View → Prop) : Prop where
  empty : ∀ b, P { suppressed := b }
  suppress : ∀ v b, (b = true → v.suppressed = true) → P v → P { v with suppressed := b }
  retain : ∀ record v v', Q record.goftraceEvent → (cfg.adaptive = true → v.suppressed = false) →
    View.Retained cfg record v v' → P v → P v'

namespace Stable

variable {cfg : Config} {Q : GoftraceEvent → Prop} {P : View → Prop}

theorem admitted (h : Stable cfg Q P) {v : View} (event : GoftraceEvent) (hv : P v) :
    P (v.admitted cfg event) := by
  unfold View.admitted View.reset
  split
  · split
    · exact h.empty false
    · exact h.suppress v false (fun hb => absurd hb Bool.false_ne_true) hv
  · exact hv

theorem step (h : Stable cfg Q P) {full : Bool} {event : GoftraceEvent} {argString : String}
    {v v' : View} {outcome : Outcome} (hevent : Q event)
    (hstep : View.Step cfg full event argString v v' outcome) (hv : P v) : P v' := by
  cases hstep with
  | exited hloc => exact h.empty false
  | aborted ha hflag => exact h.empty false
  | suppressed ha hs hstart => exact h.suppress v _ (fun _ => hs) hv
  | overBudget ha hfull => exact h.empty _
  | unresolved hprobe => exact h.admitted event hv
  | unwanted hempty hopen => exact h.admitted event hv
  | kept hprobe hret hopen =>
    exact h.retain _ _ _ hevent (View.admitted_suppressed event) hret (h.admitted event hv)
  | closed hprobe hret hclose => exact h.empty _

/-- A stable property of all goroutines survives a call. -/
theorem handle (h : Stable cfg Q P) (env : Env) (m : EventManager) {event : GoftraceEvent}
    (hevent : Q event) (hm : ∀ k, P (m.view k)) (k : TraceKey) :
    P ((EventManager.handle cfg env m event).1.view k) := by
  by_cases hk : k = event.key
  · subst hk
    exact h.step hevent (handle_step cfg env m event) (hm event.key)
  · have heffect := handle_view_of_ne cfg env m hk
    generalize (EventManager.handle cfg env m event).1.view k = v' at heffect ⊢
    cases heffect with
    | same => exact hm k
    | freed _ => exact h.suppress _ false (fun hb => absurd hb Bool.false_ne_true) (hm k)
    | evicted _ => exact h.empty false

end Stable

end GoFtrace.EventManager
