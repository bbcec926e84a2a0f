import GoFtrace.EventManager.Invariant

/-!
# Isolation

Without sampling and without a type learner a goroutine is handled as if its events were
the only ones.

* `handle_view_other`: an event leaves every other key alone.
* `handleAll_run`: a key sees a run of the machine of one goroutine.
* `handleAll_isolated`: the run of all events and the run of its own agree on a key.
-/

namespace GoFtrace.EventManager

open Lib Uprobe

/-- No sampling, no learner. -/
structure Config.Plain (cfg : Config) : Prop where
  adaptive : cfg.adaptive = false
  learns : cfg.learns = false

variable {cfg : Config}

/-! ## Other keys -/

/-- Without sampling `Handle` does nothing that another key notices. -/
theorem handle_view_other (h : cfg.Plain) (env : Env) (m : EventManager) {event : GoftraceEvent}
    {k : TraceKey} (hk : k ≠ event.key) : (handle cfg env m event).1.view k = m.view k := by
  obtain ⟨m₁, m₂, hfirst, haction, hlast⟩ := handle_local cfg env m event
  rw [hlast.view_eq hk, ← hfirst.view_eq hk]
  cases haction with
  | none => rfl
  | overBudget ha _ =>
    rw [h.adaptive] at ha
    cases ha
  | evict hv =>
    have hno : victim cfg m₁ event.key.pid = none := by
      unfold victim
      simp [h.adaptive]
    rw [hno] at hv
    cases hv

/-- The recipes never change. -/
theorem stepwise_typeRecipes (h : cfg.Plain) (env : Env) (event : GoftraceEvent)
    (recipes : Recipes) : Stepwise cfg env event fun m => m.typeRecipes = recipes where
  drop m hm := by rw [dropStack_typeRecipes, hm]
  count _ _ _ _ _ hm := hm
  unsuppress _ hm := hm
  suppress _ hm := hm
  pidState m hm := by rw [pidState_typeRecipes, hm]
  retain m probe _ _ hm := by
    have hlearn : ∀ m' : EventManager, learnInterfaceTypes cfg env m' probe event = m' := by
      intro m'
      rw [learnInterfaceTypes, h.learns]
      rfl
    unfold retain
    dsimp only
    split
    · split
      · exact hm
      · split
        · exact hm
        · rw [appendEvent, hlearn]
          simp [h.adaptive, setProcess, hm]
    · split
      · exact hm
      · rw [appendEvent, hlearn]
        simp [h.adaptive, setProcess, hm]
  record _ _ _ hm := hm

/-! ## One goroutine -/

/-- The text of the arguments of an event. -/
def argTextWith (cfg : Config) (recipes : Recipes) (event : GoftraceEvent) : String :=
  match cfg.getUprobe event.ip with
  | none => ""
  | some probe => renderEventArgs cfg probe event recipes

/-- The events of one goroutine, handled by its machine. -/
def View.run (cfg : Config) (recipes : Recipes) : View → List GoftraceEvent → View × List Outcome
  | v, [] => (v, [])
  | v, event :: events =>
    let (v, outcome) := v.handle cfg false event (argTextWith cfg recipes event)
    let (v, outcomes) := View.run cfg recipes v events
    (v, outcome :: outcomes)

/-- Without sampling the budget does not matter. -/
theorem View.handle_full (h : cfg.Plain) (full : Bool) (event : GoftraceEvent) (text : String)
    (v : View) : v.handle cfg full event text = v.handle cfg false event text := by
  simp [View.handle, View.add, View.admission, h.adaptive]

theorem handle_view_own (h : cfg.Plain) (env : Env) (m : EventManager) (event : GoftraceEvent) :
    (handle cfg env m event).1.view event.key =
        ((m.view event.key).handle cfg false event (argTextWith cfg m.typeRecipes event)).1 ∧
      (handle cfg env m event).2 =
        ((m.view event.key).handle cfg false event (argTextWith cfg m.typeRecipes event)).2 := by
  have hview := handle_view cfg env m event
  rw [View.handle_full h] at hview
  exact hview

/-! ## Runs -/

/-- The arrivals of a key. -/
def arrivalsOf (k : TraceKey) (arrivals : List (GoftraceEvent × Env)) :
    List (GoftraceEvent × Env) :=
  arrivals.filter fun a => a.1.key = k

theorem arrivalsOf_cons_self (a : GoftraceEvent × Env) (arrivals : List (GoftraceEvent × Env)) :
    arrivalsOf a.1.key (a :: arrivals) = a :: arrivalsOf a.1.key arrivals :=
  List.filter_cons_of_pos (by simp)

theorem arrivalsOf_cons_of_ne {k : TraceKey} {a : GoftraceEvent × Env} (h : a.1.key ≠ k)
    (arrivals : List (GoftraceEvent × Env)) :
    arrivalsOf k (a :: arrivals) = arrivalsOf k arrivals :=
  List.filter_cons_of_neg (by simpa using h)

/-- What became of the events of a key. -/
def outcomesOf (k : TraceKey) : List (GoftraceEvent × Env) → List Outcome → List Outcome
  | a :: arrivals, o :: outcomes =>
    if a.1.key = k then o :: outcomesOf k arrivals outcomes else outcomesOf k arrivals outcomes
  | _, _ => []

/-- A key sees the run of its own events. -/
theorem handleAll_run (h : cfg.Plain) (k : TraceKey) (arrivals : List (GoftraceEvent × Env))
    (m : EventManager) :
    (handleAll cfg m arrivals).1.view k =
        ((m.view k).run cfg m.typeRecipes ((arrivalsOf k arrivals).map Prod.fst)).1 ∧
      outcomesOf k arrivals (handleAll cfg m arrivals).2 =
        ((m.view k).run cfg m.typeRecipes ((arrivalsOf k arrivals).map Prod.fst)).2 := by
  induction arrivals generalizing m with
  | nil => exact ⟨rfl, rfl⟩
  | cons a arrivals ih =>
    obtain ⟨event, env⟩ := a
    have hrecipes : (handle cfg env m event).1.typeRecipes = m.typeRecipes :=
      (stepwise_typeRecipes h env event m.typeRecipes).handle rfl
    obtain ⟨hview, hout⟩ := ih (handle cfg env m event).1
    rw [hrecipes] at hview hout
    rw [handleAll]
    dsimp only
    rw [outcomesOf]
    by_cases hk : event.key = k
    · subst hk
      obtain ⟨hown, hoc⟩ := handle_view_own h env m event
      rw [hown] at hview hout
      rw [if_pos rfl, hview, hout, hoc, arrivalsOf_cons_self (event, env), List.map_cons, View.run]
      exact ⟨rfl, rfl⟩
    · rw [handle_view_other h env m (Ne.symm hk)] at hview hout
      rw [if_neg hk, hview, hout, arrivalsOf_cons_of_ne hk]
      exact ⟨rfl, rfl⟩

/-- What a key can tell of a run: its goroutine and what became of its events. -/
def observed (cfg : Config) (k : TraceKey) (arrivals : List (GoftraceEvent × Env)) :
    View × List Outcome :=
  ((handleAll cfg {} arrivals).1.view k, outcomesOf k arrivals (handleAll cfg {} arrivals).2)

theorem observed_eq (h : cfg.Plain) (k : TraceKey) (arrivals : List (GoftraceEvent × Env)) :
    observed cfg k arrivals =
      (({} : EventManager).view k).run cfg (fun _ => []) ((arrivalsOf k arrivals).map Prod.fst) :=
  Prod.ext_iff.mpr (handleAll_run h k arrivals {})

theorem arrivalsOf_idem (k : TraceKey) (arrivals : List (GoftraceEvent × Env)) :
    arrivalsOf k (arrivalsOf k arrivals) = arrivalsOf k arrivals := by
  simp [arrivalsOf]

/-- Events of different keys keep their order in each key. -/
theorem arrivalsOf_swap (k : TraceKey) (xs ys : List (GoftraceEvent × Env))
    {a b : GoftraceEvent × Env} (hab : a.1.key ≠ b.1.key) :
    arrivalsOf k (xs ++ a :: b :: ys) = arrivalsOf k (xs ++ b :: a :: ys) := by
  by_cases ha : a.1.key = k
  · have hb : b.1.key ≠ k := fun e => hab (ha.trans e.symm)
    simp [arrivalsOf, List.filter_append, ha, hb]
  · simp [arrivalsOf, List.filter_append, List.filter_cons, ha]

/-- Without sampling and without a learner a key cannot tell the run of all events from the
run of its own, and events of different keys commute. -/
theorem handleAll_isolated (cfg : Config) (hadaptive : cfg.adaptive = false)
    (hlearns : cfg.learns = false) (k : TraceKey) :
    (∀ arrivals : List (GoftraceEvent × Env),
      observed cfg k arrivals = observed cfg k (arrivalsOf k arrivals)) ∧
    ∀ (xs ys : List (GoftraceEvent × Env)) (a b : GoftraceEvent × Env), a.1.key ≠ b.1.key →
      observed cfg k (xs ++ a :: b :: ys) = observed cfg k (xs ++ b :: a :: ys) := by
  have h : cfg.Plain := ⟨hadaptive, hlearns⟩
  constructor
  · intro arrivals
    rw [observed_eq h, observed_eq h, arrivalsOf_idem]
  · intro xs ys a b hab
    rw [observed_eq h, observed_eq h, arrivalsOf_swap k xs ys hab]

/-- Printing, without sampling. -/
def plainConfig : Config := { sampleConfig false with adaptive := false }

/-- Two processes with a goroutine of the same number. -/
theorem handleAll_isolated_pair :
    (∀ arrivals : List (GoftraceEvent × Env),
      observed plainConfig ⟨1, 1⟩ arrivals =
        observed plainConfig ⟨1, 1⟩ (arrivalsOf ⟨1, 1⟩ arrivals)) ∧
    ∀ (xs ys : List (GoftraceEvent × Env)) (a b : GoftraceEvent × Env), a.1.key ≠ b.1.key →
      observed plainConfig ⟨1, 1⟩ (xs ++ a :: b :: ys) =
        observed plainConfig ⟨1, 1⟩ (xs ++ b :: a :: ys) :=
  handleAll_isolated plainConfig rfl rfl ⟨1, 1⟩

end GoFtrace.EventManager
