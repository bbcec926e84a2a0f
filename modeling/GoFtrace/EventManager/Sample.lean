import GoFtrace.EventManager.Cases
import GoFtrace.EventManager.Invariant

/-!
# Samples

In adaptive mode the events retained for a goroutine are a whole sample: everything that
was delivered for it since the latest root entry, or nothing.

* `handle_whole`, `handle_nothing`: one event.
* `handleAll_sample`: every run.
-/

namespace GoFtrace.EventManager

open Lib Uprobe

/-! ## The delivered events -/

/-- An entry that starts a sample. -/
def startsSample (event : GoftraceEvent) : Bool :=
  event.location == Bpf.entPoint && hasFlag event Bpf.traceStart

/-- The events from the latest root entry on. -/
def sinceStart : List GoftraceEvent → List GoftraceEvent
  | [] => []
  | e :: es =>
    if es.any startsSample then sinceStart es else if startsSample e then e :: es else []

/-- Whether an entry repeats the one before it after the stack has moved. -/
def repeats (last event : GoftraceEvent) : Bool :=
  last.location == event.location && last.ip == event.ip && last.bp != event.callerBp

/-- An event behind others; a repeated one takes the place of the last. -/
def mergeNext (events : List GoftraceEvent) (event : GoftraceEvent) : List GoftraceEvent :=
  match events.getLast? with
  | none => [event]
  | some last => if repeats last event then events.dropLast ++ [event] else events ++ [event]

/-- The events with each repeated one merged into its predecessor. -/
def mergeRepeats (events : List GoftraceEvent) : List GoftraceEvent := events.foldl mergeNext []

/-- The events of a key. -/
def delivered (k : TraceKey) (arrivals : List (GoftraceEvent × Env)) : List GoftraceEvent :=
  (arrivals.map Prod.fst).filter fun e => e.key = k

theorem sinceStart_append_of_starts (es : List GoftraceEvent) {e : GoftraceEvent}
    (h : startsSample e = true) : sinceStart (es ++ [e]) = [e] := by
  induction es with
  | nil => simp [sinceStart, h]
  | cons d es ih => simp [sinceStart, h, ih]

theorem sinceStart_append_of_not_starts {es : List GoftraceEvent} {e : GoftraceEvent}
    (h : startsSample e = false) (hne : sinceStart es ≠ []) :
    sinceStart (es ++ [e]) = sinceStart es ++ [e] := by
  induction es with
  | nil => exact absurd rfl hne
  | cons d es ih =>
    have hany : (es ++ [e]).any startsSample = es.any startsSample := by simp [h]
    rw [List.cons_append, sinceStart, hany]
    by_cases hstarts : es.any startsSample = true
    · have htail : sinceStart (d :: es) = sinceStart es := by rw [sinceStart, if_pos hstarts]
      rw [htail] at hne ⊢
      rw [if_pos hstarts, ih hne]
    · have htail : sinceStart (d :: es) = if startsSample d then d :: es else [] := by
        rw [sinceStart, if_neg hstarts]
      rw [htail] at hne ⊢
      rw [if_neg hstarts]
      split
      · rfl
      · rename_i hd
        rw [if_neg hd] at hne
        exact absurd rfl hne

theorem mergeRepeats_append (es : List GoftraceEvent) (e : GoftraceEvent) :
    mergeRepeats (es ++ [e]) = mergeNext (mergeRepeats es) e := by
  rw [mergeRepeats, List.foldl_append]
  rfl

/-! ## One event -/

/-- The retained events are the whole sample or nothing. -/
def WholeSample (events : List GoftraceEvent) (v : View) : Prop :=
  v.events = [] ∨ v.events.map Event.goftraceEvent = mergeRepeats (sinceStart events)

/-- A suppressed goroutine retains nothing. -/
def Quiet (v : View) : Prop := v.suppressed = true → v.events = []

theorem append_events (cfg : Config) (record : Event) (v : View) :
    (v.append cfg record).events = v.events ++ [record] := by
  unfold View.append View.observe
  split
  · rfl
  · split
    · split <;> rfl
    · rfl

theorem append_suppressed (cfg : Config) (record : Event) (v : View) :
    (v.append cfg record).suppressed = v.suppressed := by
  unfold View.append View.observe
  split
  · rfl
  · split
    · split <;> rfl
    · rfl

theorem stable_quiet {cfg : Config} (ha : cfg.adaptive = true) :
    Stable cfg (fun _ => True) Quiet where
  empty _ _ := rfl
  suppress _ _ himp hv hb := hv (himp hb)
  retain record v v' _ hsup hret _ hs := by
    have hno : v'.suppressed = v.suppressed := by
      cases hret with
      | append _ _ => exact append_suppressed cfg record v
      | replace _ _ => rfl
    rw [hno, hsup ha] at hs
    cases hs

/-- A retained event follows the sample, or starts the next one. -/
theorem retained_events {cfg : Config} (ha : cfg.adaptive = true) {record : Event} {v v' : View}
    (h : View.Retained cfg record (v.admitted cfg record.goftraceEvent) v') :
    (startsSample record.goftraceEvent = true ∧ v'.events = [record]) ∨
      (startsSample record.goftraceEvent = false ∧ v.events ≠ [] ∧
        v'.events.map Event.goftraceEvent =
          mergeNext (v.events.map Event.goftraceEvent) record.goftraceEvent) := by
  generalize hw : v.admitted cfg record.goftraceEvent = w at h
  have hevents : w.events = [] ∨
      (w.events = v.events ∧ v.events ≠ [] ∧
        hasFlag record.goftraceEvent Bpf.traceStart = false) := by
    rw [← hw, View.admitted, if_pos ha, View.reset]
    by_cases hnil : v.events = []
    · left
      split
      · rfl
      · exact hnil
    · cases hflag : hasFlag record.goftraceEvent Bpf.traceStart with
      | true => exact .inl (by simp [hnil, View.clear])
      | false => exact .inr ⟨by simp, hnil, rfl⟩
  cases h with
  | append hfirst hdup =>
    rw [append_events]
    rcases hevents with hnil | ⟨heq, hne, hflag⟩
    · have hopen := hfirst hnil
      rw [View.opensStack, ha] at hopen
      exact .inl ⟨by simpa [startsSample] using hopen, by rw [hnil, List.nil_append]⟩
    · refine .inr ⟨by simp [startsSample, hflag], hne, ?_⟩
      rw [heq] at hdup ⊢
      obtain ⟨last, hlast⟩ : ∃ last, v.events.getLast? = some last := by
        cases hl : v.events.getLast? with
        | none => exact absurd (List.getLast?_eq_none_iff.mp hl) hne
        | some last => exact ⟨last, rfl⟩
      have hno : repeats last.goftraceEvent record.goftraceEvent = false := hdup last hlast
      rw [mergeNext, List.getLast?_map, hlast, Option.map_some, List.map_append]
      dsimp only
      rw [if_neg (by rw [hno]; exact Bool.false_ne_true)]
      rfl
  | @replace last hlast hdup =>
    rcases hevents with hnil | ⟨heq, hne, hflag⟩
    · rw [hnil] at hlast
      cases hlast
    · refine .inr ⟨by simp [startsSample, hflag], hne, ?_⟩
      rw [View.replace]
      dsimp only
      rw [heq] at hlast ⊢
      have hyes : repeats last.goftraceEvent record.goftraceEvent = true := hdup
      rw [mergeNext, List.getLast?_map, hlast, Option.map_some, List.map_append, List.map_dropLast]
      dsimp only
      rw [if_pos hyes]
      rfl

/-- Whether `GetUprobe` succeeds wherever it is called. -/
def Resolves (cfg : Config) (event : GoftraceEvent) : Prop :=
  event.location ≠ Bpf.goroutineExitPoint → cfg.getUprobe event.ip ≠ none

variable {cfg : Config} {m : EventManager} {event : GoftraceEvent} {k : TraceKey}

/-- A retained event keeps the sample whole. -/
theorem retained_whole (ha : cfg.adaptive = true) {record : Event} {v v' : View}
    {events : List GoftraceEvent} (hv : WholeSample events v)
    (h : View.Retained cfg record (v.admitted cfg record.goftraceEvent) v') :
    WholeSample (events ++ [record.goftraceEvent]) v' := by
  right
  rcases retained_events ha h with ⟨hstarts, heq⟩ | ⟨hstarts, hne, heq⟩
  · rw [heq, sinceStart_append_of_starts events hstarts]
    rfl
  · have hsample := hv.resolve_left hne
    have hsince : sinceStart events ≠ [] := by
      intro hnil
      rw [hnil] at hsample
      exact hne (List.map_eq_nil_iff.mp hsample)
    rw [heq, hsample, sinceStart_append_of_not_starts hstarts hsince, mergeRepeats_append]

/-- The sample of the event's key stays whole. -/
theorem handle_whole (ha : cfg.adaptive = true) (env : Env) (hevent : Resolves cfg event)
    {events : List GoftraceEvent} (hquiet : Quiet (m.view event.key))
    (hv : WholeSample events (m.view event.key)) :
    WholeSample (events ++ [event]) ((handle cfg env m event).1.view event.key) := by
  by_cases hloc : event.location = Bpf.goroutineExitPoint
  · left
    rw [(handle_view cfg env m event).1, View.handle, if_pos hloc]
  · have hstep := handle_step cfg env m event
    generalize (handle cfg env m event).1.view event.key = v' at hstep ⊢
    generalize (handle cfg env m event).2 = outcome at hstep
    cases hstep with
    | exited h => exact absurd h hloc
    | aborted _ _ => exact .inl rfl
    | suppressed _ hs hstart => exact .inl (hquiet hs)
    | overBudget _ _ => exact .inl rfl
    | unresolved hprobe => exact absurd hprobe (hevent hloc)
    | unwanted hempty hopen => exact .inl hempty
    | kept hprobe hret hopen => exact retained_whole ha hv hret
    | closed hprobe hret hclose => exact .inl rfl

/-- An event that starts no sample is not retained alone. -/
theorem handle_nothing (ha : cfg.adaptive = true) (env : Env) (hno : startsSample event = false)
    (hnil : (m.view event.key).events = []) :
    ((handle cfg env m event).1.view event.key).events = [] := by
  have hadmitted : ((m.view event.key).admitted cfg event).events = [] := by
    rw [View.admitted, if_pos ha, View.reset]
    split
    · rfl
    · exact hnil
  have hstep := handle_step cfg env m event
  generalize (handle cfg env m event).1.view event.key = v' at hstep ⊢
  generalize (handle cfg env m event).2 = outcome at hstep
  cases hstep with
  | exited _ => rfl
  | aborted _ _ => rfl
  | suppressed _ _ _ => exact hnil
  | overBudget _ _ => rfl
  | unresolved _ => exact hadmitted
  | unwanted hempty _ => exact hempty
  | kept hprobe hret hopen =>
    rcases retained_events ha hret with ⟨hstarts, -⟩ | ⟨-, hne, -⟩
    · rw [hno] at hstarts
      cases hstarts
    · exact absurd hnil hne
  | closed _ _ _ => rfl

/-- An event of another key leaves the retained events alone, or drops them. -/
theorem handle_sample_of_ne (cfg : Config) (m : EventManager) (env : Env) (hk : k ≠ event.key) :
    ((handle cfg env m event).1.view k).events = (m.view k).events ∨
      ((handle cfg env m event).1.view k).events = [] := by
  have heffect := handle_view_of_ne cfg env m hk
  generalize (handle cfg env m event).1.view k = v' at heffect ⊢
  cases heffect with
  | same => exact .inl rfl
  | freed _ => exact .inl rfl
  | evicted _ => exact .inr rfl

/-! ## Runs -/

theorem handleAll_quiet (ha : cfg.adaptive = true) (arrivals : List (GoftraceEvent × Env))
    (hm : ∀ k, Quiet (m.view k)) : ∀ k, Quiet ((handleAll cfg m arrivals).1.view k) :=
  handleAll_induction (P := fun m => ∀ k, Quiet (m.view k))
    (fun env m _ hm => (stable_quiet ha).handle env m trivial hm) arrivals hm

theorem handleAll_append_fst (xs ys : List (GoftraceEvent × Env)) (m : EventManager) :
    (handleAll cfg m (xs ++ ys)).1 = (handleAll cfg (handleAll cfg m xs).1 ys).1 := by
  induction xs generalizing m with
  | nil => rfl
  | cons x xs ih => exact ih (handle cfg x.2 m x.1).1

theorem quiet_empty (k : TraceKey) : Quiet (({} : EventManager).view k) := fun _ => rfl

theorem delivered_append (k : TraceKey) (xs ys : List (GoftraceEvent × Env)) :
    delivered k (xs ++ ys) = delivered k xs ++ delivered k ys := by
  simp [delivered]

/-- The retained events stay whole. -/
theorem handleAll_whole (ha : cfg.adaptive = true) (arrivals : List (GoftraceEvent × Env))
    {k : TraceKey} (hres : ∀ e ∈ delivered k arrivals, Resolves cfg e) :
    WholeSample (delivered k arrivals) ((handleAll cfg {} arrivals).1.view k) := by
  induction arrivals using List.reverseRecOn with
  | nil => exact .inl rfl
  | append_singleton arrivals a ih =>
    rw [delivered_append] at hres ⊢
    have hwhole := ih fun e he => hres e (List.mem_append_left _ he)
    have hquiet := handleAll_quiet ha arrivals quiet_empty
    rw [handleAll_append_fst]
    by_cases hk : k = a.1.key
    · subst hk
      have hown : delivered a.1.key [a] = [a.1] := by simp [delivered]
      rw [hown] at hres ⊢
      exact handle_whole ha a.2 (hres a.1 (by simp)) (hquiet a.1.key) hwhole
    · have hown : delivered k [a] = [] := by simp [delivered, Ne.symm hk]
      rw [hown, List.append_nil]
      rcases handle_sample_of_ne cfg (handleAll cfg {} arrivals).1 a.2 hk with
        heq | hnil
      · exact hwhole.imp heq.trans fun h => (congrArg (List.map Event.goftraceEvent) heq).trans h
      · exact .inl hnil

/-- A goroutine without retained events retains none before the next root entry. -/
theorem handleAll_nothing (ha : cfg.adaptive = true) (arrivals : List (GoftraceEvent × Env))
    (hno : ∀ e ∈ delivered k arrivals, startsSample e = false) (hnil : m.events k = []) :
    (handleAll cfg m arrivals).1.events k = [] := by
  induction arrivals generalizing m with
  | nil => exact hnil
  | cons a arrivals ih =>
    refine ih (fun e he => hno e ?_) ?_
    · rw [← List.singleton_append, delivered_append]
      exact List.mem_append_right _ he
    · by_cases hk : k = a.1.key
      · subst hk
        have hstart : startsSample a.1 = false := hno a.1 (by simp [delivered])
        exact handle_nothing ha a.2 hstart hnil
      · rcases handle_sample_of_ne cfg m a.2 hk with heq | hno'
        · exact heq.trans hnil
        · exact hno'

/-- After every run the events retained for a key are none or all that were delivered since
its latest root entry, in order, repeated ones merged; and once none are retained none are
until the next root entry. -/
theorem handleAll_sample (cfg : Config) (ha : cfg.adaptive = true)
    (arrivals : List (GoftraceEvent × Env)) (hres : ∀ a ∈ arrivals, Resolves cfg a.1)
    (k : TraceKey) :
    ((handleAll cfg {} arrivals).1.events k = [] ∨
      ((handleAll cfg {} arrivals).1.events k).map Event.goftraceEvent =
        mergeRepeats (sinceStart (delivered k arrivals))) ∧
    ((handleAll cfg {} arrivals).1.events k = [] →
      ∀ more : List (GoftraceEvent × Env),
        (∀ e ∈ delivered k more, startsSample e = false) →
        (handleAll cfg {} (arrivals ++ more)).1.events k = []) := by
  have hown : ∀ e ∈ delivered k arrivals, Resolves cfg e := by
    intro e he
    obtain ⟨a, hmem, rfl⟩ := List.mem_map.mp (List.mem_of_mem_filter he)
    exact hres a hmem
  refine ⟨handleAll_whole ha arrivals hown, fun hnil more hno => ?_⟩
  rw [handleAll_append_fst]
  exact handleAll_nothing ha more hno hnil

/-- The hypotheses hold of a sample that is started and left open. -/
theorem handleAll_sample_open :
    let arrivals := sampleArrivals [sampleStart 1]
    ((handleAll (sampleConfig true) {} arrivals).1.events ⟨1, 1⟩ = [] ∨
      ((handleAll (sampleConfig true) {} arrivals).1.events ⟨1, 1⟩).map Event.goftraceEvent =
        mergeRepeats (sinceStart (delivered ⟨1, 1⟩ arrivals))) ∧
    ((handleAll (sampleConfig true) {} arrivals).1.events ⟨1, 1⟩ = [] →
      ∀ more : List (GoftraceEvent × Env),
        (∀ e ∈ delivered ⟨1, 1⟩ more, startsSample e = false) →
        (handleAll (sampleConfig true) {} (arrivals ++ more)).1.events ⟨1, 1⟩ = []) :=
  handleAll_sample (sampleConfig true) rfl (sampleArrivals [sampleStart 1])
    (fun a ha _ => by
      rw [List.mem_singleton.mp ha]
      with_unfolding_all decide)
    ⟨1, 1⟩

end GoFtrace.EventManager
