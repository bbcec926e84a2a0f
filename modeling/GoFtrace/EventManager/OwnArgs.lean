import GoFtrace.EventManager.Sample

/-!
# The arguments of a record

A retained record has the text of its arguments, rendered when it was appended. An entry that
comes again after the stack has moved replaces the event of the record, not the text.

* `View.handle_records`: what a call does to the records of a goroutine.
* `handleAll_ownArgs`: the runs in which the text is always that of the event.
-/

namespace GoFtrace.EventManager

open Lib Uprobe

/-! ## Records -/

/-- The record carries its own arguments and its own probe: the text was rendered from the event
it holds, with the recipes of a state that was seen. -/
structure OwnArgs (cfg : Config) (seen : Recipes → Prop) (r : Event) : Prop where
  uprobe : cfg.getUprobe r.goftraceEvent.ip = some r.uprobe
  argString : ∃ recipes, seen recipes ∧
    r.argString = renderEventArgs cfg r.uprobe r.goftraceEvent recipes

theorem OwnArgs.mono {cfg : Config} {seen seen' : Recipes → Prop} {r : Event}
    (h : OwnArgs cfg seen r) (hle : ∀ recipes, seen recipes → seen' recipes) :
    OwnArgs cfg seen' r := by
  obtain ⟨recipes, hseen, htext⟩ := h.argString
  exact ⟨h.uprobe, recipes, hle recipes hseen, htext⟩

/-- Two events with the same leaves. -/
def SameArgs (a b : GoftraceEvent) : Prop :=
  a.argCount = b.argCount ∧ leafData a = leafData b

theorem renderEventArgs_congr {cfg : Config} {probe : Uprobe} {a b : GoftraceEvent}
    (h : SameArgs a b) (recipes : Recipes) :
    renderEventArgs cfg probe a recipes = renderEventArgs cfg probe b recipes := by
  unfold renderEventArgs
  rw [h.1, h.2]

/-- A repeated entry with the same leaves. -/
theorem OwnArgs.replace {cfg : Config} {seen : Recipes → Prop} {last : Event}
    {event : GoftraceEvent} (h : OwnArgs cfg seen last) (hdup : isDuplicate last event = true)
    (hsame : SameArgs event last.goftraceEvent) :
    OwnArgs cfg seen { last with goftraceEvent := event } := by
  have hip : last.goftraceEvent.ip = event.ip := by
    simp only [isDuplicate, Bool.and_eq_true, beq_iff_eq] at hdup
    exact hdup.1.2
  obtain ⟨recipes, hseen, htext⟩ := h.argString
  refine ⟨?_, recipes, hseen, ?_⟩
  · dsimp only
    rw [← hip]
    exact h.uprobe
  · dsimp only
    rw [htext, renderEventArgs_congr hsame]

/-- The records that a closed stack is printed or aggregated from. -/
def Outcome.records : Outcome → List Event
  | .aggregated events _ _ => events
  | .printed events => events
  | _ => []

/-! ## One goroutine -/

namespace View

/-- The record that an event takes the place of. -/
def replaced (cfg : Config) (full : Bool) (event : GoftraceEvent) (v : View) : Option Event :=
  if event.location = Bpf.goroutineExitPoint then none
  else if cfg.adaptive && (hasFlag event Bpf.traceAbort || hasFlag event Bpf.traceStart ||
      v.suppressed || full) then none
  else v.events.getLast?.filter (isDuplicate · event)

section
variable {cfg : Config} {full : Bool} {event : GoftraceEvent} {argString : String} {v : View}
  {P : Event → Prop}

theorem append_records {record : Event} (hv : ∀ r ∈ v.events, P r) (hrecord : P record) :
    ∀ r ∈ (v.append cfg record).events, P r := by
  have hevents : (v.append cfg record).events = v.events ++ [record] := by
    unfold append observe
    split
    · rfl
    · split
      · split <;> rfl
      · rfl
  rw [hevents]
  exact List.forall_mem_append.mpr ⟨hv, List.forall_mem_singleton.mpr hrecord⟩

theorem retain_records {record : Event} (hv : ∀ r ∈ v.events, P r) (hrecord : P record)
    (hreplace : ∀ last, v.events.getLast? = some last →
      isDuplicate last record.goftraceEvent = true →
        P { last with goftraceEvent := record.goftraceEvent }) :
    ∀ r ∈ (v.retain cfg record).1.events, P r := by
  unfold retain
  dsimp only
  cases hlast : v.events.getLast? with
  | none =>
    dsimp only
    split
    · exact hv
    · split
      · exact hv
      · exact append_records hv hrecord
  | some last =>
    dsimp only
    split
    · rename_i hdup
      refine List.forall_mem_append.mpr ⟨fun r hr => hv r (List.mem_of_mem_dropLast hr), ?_⟩
      exact List.forall_mem_singleton.mpr (hreplace last hlast hdup)
    · exact append_records hv hrecord

/-- An admitted event finds the records as they were, or none. -/
theorem admission_records (hv : ∀ r ∈ v.events, P r) :
    (∀ r ∈ (v.admission cfg full event).1.events, P r) ∧
      ((v.admission cfg full event).2 = true →
        (v.admission cfg full event).1.events = [] ∨
          (v.admission cfg full event).1.events = v.events ∧
            (cfg.adaptive && (hasFlag event Bpf.traceStart || v.suppressed || full)) = false) := by
  unfold admission
  cases ha : cfg.adaptive with
  | false => exact ⟨hv, fun _ => .inr ⟨rfl, rfl⟩⟩
  | true =>
    simp only [Bool.not_true, Bool.false_eq_true, if_false]
    cases hstart : hasFlag event Bpf.traceStart with
    | true =>
      have hnil : (v.reset event).events = [] := by
        rw [reset, hstart]
        cases hevents : v.events with
        | nil => exact hevents
        | cons e es => rfl
      simp only [Bool.not_true, Bool.and_false, Bool.false_eq_true, if_false]
      split
      · exact ⟨List.forall_mem_nil _, fun h => absurd h Bool.false_ne_true⟩
      · exact ⟨by rw [hnil]; exact List.forall_mem_nil _, fun _ => .inl hnil⟩
    | false =>
      have hreset : v.reset event = v := by
        rw [reset, hstart]
        rfl
      rw [hreset]
      cases hs : v.suppressed with
      | true => exact ⟨hv, fun h => absurd h Bool.false_ne_true⟩
      | false =>
        cases full with
        | true => exact ⟨List.forall_mem_nil _, fun h => absurd h Bool.false_ne_true⟩
        | false => exact ⟨hv, fun _ => .inr ⟨rfl, rfl⟩⟩

/-- What a call does to the records of its goroutine: one is appended with the text rendered for
it, or the event of the last one is replaced. -/
theorem handle_records (hv : ∀ r ∈ v.events, P r)
    (happend : ∀ probe, cfg.getUprobe event.ip = some probe →
      P { goftraceEvent := event, uprobe := probe, argString := argString })
    (hreplace : ∀ last, v.replaced cfg full event = some last →
      P { last with goftraceEvent := event }) :
    (∀ r ∈ (v.handle cfg full event argString).1.events, P r) ∧
      ∀ r ∈ (v.handle cfg full event argString).2.records, P r := by
  unfold handle
  by_cases hexit : event.location = Bpf.goroutineExitPoint
  · rw [if_pos hexit]
    exact ⟨nofun, nofun⟩
  rw [if_neg hexit]
  by_cases habort : (cfg.adaptive && hasFlag event Bpf.traceAbort) = true
  · rw [if_pos habort]
    exact ⟨nofun, nofun⟩
  rw [if_neg habort]
  have hadd : ∀ r ∈ (v.add cfg full event argString).1.events, P r := by
    obtain ⟨hkeep, hfound⟩ := @admission_records cfg full event v P hv
    unfold add
    generalize v.admission cfg full event = w at hkeep hfound ⊢
    obtain ⟨w, ok⟩ := w
    cases ok with
    | false => exact hkeep
    | true =>
      simp only [Bool.not_true, Bool.false_eq_true, if_false]
      cases hprobe : cfg.getUprobe event.ip with
      | none => exact hkeep
      | some probe =>
        refine retain_records hkeep (happend probe hprobe) fun last hlast hdup => hreplace last ?_
        rcases hfound rfl with hnil | ⟨hevents, hopen⟩
        · rw [hnil] at hlast
          cases hlast
        · have hfree : (cfg.adaptive && (hasFlag event Bpf.traceAbort ||
              hasFlag event Bpf.traceStart || v.suppressed || full)) = false := by
            cases ha : cfg.adaptive with
            | false => rfl
            | true =>
              rw [ha, Bool.true_and] at habort hopen
              rw [Bool.true_and, Bool.eq_false_iff.mpr habort, Bool.false_or]
              exact hopen
          rw [replaced, if_neg hexit, hfree, if_neg Bool.false_ne_true, ← hevents, hlast]
          exact if_pos hdup
  generalize v.add cfg full event argString = w at hadd ⊢
  obtain ⟨w, ok⟩ := w
  cases ok with
  | false => exact ⟨hadd, nofun⟩
  | true =>
    simp only [Bool.not_true, Bool.false_eq_true, if_false]
    split
    · refine ⟨nofun, ?_⟩
      unfold closing
      split
      · split
        · exact nofun
        · exact hadd
      · split
        · exact hadd
        · split
          · split
            · exact hadd
            · exact nofun
          · exact nofun
    · exact ⟨hadd, nofun⟩

end

end View

/-! ## Runs -/

/-- The record that an event takes the place of, in the state that it finds. -/
def replaced (cfg : Config) (m : EventManager) (event : GoftraceEvent) : Option Event :=
  (m.view event.key).replaced cfg (budgetFull cfg m event) event

section
variable {cfg : Config}

/-- What one call does to the records of all goroutines. -/
theorem handle_ownArgs {seen : Recipes → Prop} (env : Env) {m : EventManager}
    {event : GoftraceEvent} (hseen : seen m.typeRecipes)
    (hsame : ∀ last, replaced cfg m event = some last → SameArgs event last.goftraceEvent)
    (hm : ∀ k, ∀ r ∈ (m.view k).events, OwnArgs cfg seen r) :
    (∀ k, ∀ r ∈ ((handle cfg env m event).1.view k).events, OwnArgs cfg seen r) ∧
      ∀ r ∈ (handle cfg env m event).2.records, OwnArgs cfg seen r := by
  have happend : ∀ probe, cfg.getUprobe event.ip = some probe → OwnArgs cfg seen
      { goftraceEvent := event, uprobe := probe, argString := argText cfg m event } := by
    intro probe hprobe
    refine ⟨hprobe, m.typeRecipes, hseen, ?_⟩
    rw [argText, hprobe]
  have hreplace : ∀ last, replaced cfg m event = some last →
      OwnArgs cfg seen { last with goftraceEvent := event } := by
    intro last hlast
    have hfound := hlast
    unfold replaced View.replaced at hfound
    split at hfound
    · cases hfound
    split at hfound
    · cases hfound
    obtain ⟨hget, hdup⟩ := Option.filter_eq_some_iff.mp hfound
    exact (hm event.key last (List.mem_of_getLast? hget)).replace hdup (hsame last hlast)
  obtain ⟨hview, hout⟩ := handle_view cfg env m event
  obtain ⟨hown, hclosed⟩ := View.handle_records (hm event.key) happend hreplace
  constructor
  · intro k
    by_cases hk : k = event.key
    · subst hk
      rw [hview]
      exact hown
    · have heffect := handle_view_of_ne cfg env m hk
      generalize (handle cfg env m event).1.view k = v at heffect ⊢
      cases heffect with
      | same => exact hm k
      | freed _ => exact hm k
      | evicted _ => exact List.forall_mem_nil _
  · rw [hout]
    exact hclosed

/-- The recipes of the states of a run. -/
def SeenRecipes (cfg : Config) (arrivals : List (GoftraceEvent × Env)) (recipes : Recipes) :
    Prop :=
  ∃ before, before <+: arrivals ∧ (handleAll cfg {} before).1.typeRecipes = recipes

theorem SeenRecipes.mono {arrivals more : List (GoftraceEvent × Env)} {recipes : Recipes}
    (h : SeenRecipes cfg arrivals recipes) (hpre : arrivals <+: more) :
    SeenRecipes cfg more recipes := by
  obtain ⟨before, hbefore, heq⟩ := h
  exact ⟨before, hbefore.trans hpre, heq⟩

/-- Every entry of a run that replaces a record has the leaves of that record. -/
def RepeatsArgs (cfg : Config) (arrivals : List (GoftraceEvent × Env)) : Prop :=
  ∀ before a, before ++ [a] <+: arrivals → ∀ last,
    replaced cfg (handleAll cfg {} before).1 a.1 = some last → SameArgs a.1 last.goftraceEvent

theorem handleAll_append_snd (xs ys : List (GoftraceEvent × Env)) (m : EventManager) :
    (handleAll cfg m (xs ++ ys)).2 =
      (handleAll cfg m xs).2 ++ (handleAll cfg (handleAll cfg m xs).1 ys).2 := by
  induction xs generalizing m with
  | nil => rfl
  | cons x xs ih => exact congrArg (_ :: ·) (ih (handle cfg x.2 m x.1).1)

/-- A run whose repeated entries have the leaves of the first one. -/
theorem run_ownArgs (arrivals : List (GoftraceEvent × Env)) (h : RepeatsArgs cfg arrivals) :
    (∀ k, ∀ r ∈ ((handleAll cfg {} arrivals).1.view k).events,
        OwnArgs cfg (SeenRecipes cfg arrivals) r) ∧
      ∀ o ∈ (handleAll cfg {} arrivals).2, ∀ r ∈ o.records,
        OwnArgs cfg (SeenRecipes cfg arrivals) r := by
  induction arrivals using List.reverseRecOn with
  | nil => exact ⟨fun _ => nofun, nofun⟩
  | append_singleton before a ih =>
    have hpre := List.prefix_append before [a]
    obtain ⟨hrecords, hout⟩ := ih fun xs x hxs => h xs x (hxs.trans hpre)
    have hmono : ∀ r, OwnArgs cfg (SeenRecipes cfg before) r →
        OwnArgs cfg (SeenRecipes cfg (before ++ [a])) r :=
      fun r hr => hr.mono fun recipes hseen => hseen.mono hpre
    obtain ⟨hnext, hlast⟩ := handle_ownArgs a.2 ⟨before, hpre, rfl⟩
      (h before a (List.prefix_refl _)) fun k r hr => hmono r (hrecords k r hr)
    rw [handleAll_append_fst, handleAll_append_snd]
    refine ⟨hnext, List.forall_mem_append.mpr ⟨fun o ho r hr => hmono r (hout o ho r hr), ?_⟩⟩
    exact List.forall_mem_singleton.mpr hlast

/-- In every run in which each repeated entry has the leaves of the record that it replaces,
every record that is retained in a state, or printed or aggregated on the way, carries its own
arguments and its own probe. -/
theorem handleAll_ownArgs (arrivals : List (GoftraceEvent × Env))
    (h : RepeatsArgs cfg arrivals) (done : List (GoftraceEvent × Env)) (hdone : done <+: arrivals) :
    (∀ k, ∀ r ∈ (handleAll cfg {} done).1.events k, OwnArgs cfg (SeenRecipes cfg done) r) ∧
      ∀ o ∈ (handleAll cfg {} done).2, ∀ r ∈ o.records, OwnArgs cfg (SeenRecipes cfg done) r :=
  run_ownArgs done fun before a hpre => h before a (hpre.trans hdone)

end

/-! ## A stack that moved -/

/-- One traced function with one argument. -/
def grownConfig : Config :=
  { sampleConfig false with
    adaptive := false
    symbols := [{ name := "R", value := 16 }]
    uprobes :=
      [{ funcname := "R", address := 16, relOffset := 0, location := .atEntry, wanted := true
         fetchArgs :=
           [{ varname := "x", type := "u64", size := 8, rules := [.register (some .ax)] }] }] }

/-- Its entry with an argument. -/
def grownEntry (x : UInt64) : GoftraceEvent :=
  (sampleStart 1).withLeaves [Bpf.ArgData.ofBytes (wordBytes x)]

/-- The entry comes twice, with two arguments: the record keeps the text of the first one,
whatever the recipes are. -/
theorem grownEntry_stale :
    let arrivals := sampleArrivals [grownEntry 1, grownEntry 2]
    ∃ r ∈ (handleAll grownConfig {} arrivals).1.events ⟨1, 1⟩,
      r.goftraceEvent = grownEntry 2 ∧ ∀ seen, ¬ OwnArgs grownConfig seen r := by
  intro arrivals
  have hevents : ((handleAll grownConfig {} arrivals).1.events ⟨1, 1⟩).map (·.goftraceEvent) =
      [grownEntry 2] := by decide +kernel
  have htexts : ((handleAll grownConfig {} arrivals).1.events ⟨1, 1⟩).map (·.argString) =
      ["x=1"] := by decide +kernel
  have hprobe : (grownConfig.getUprobe 16).map (fun u => (u.fetchArgs, u.values.isEmpty)) =
      some ([{ varname := "x", type := "u64", size := 8, rules := [.register (some .ax)] }],
        true) := by decide +kernel
  obtain ⟨r, hlist, hevent⟩ := List.map_eq_singleton_iff.mp hevents
  rw [hlist] at htexts ⊢
  refine ⟨r, List.mem_singleton_self r, hevent, fun seen hown => ?_⟩
  obtain ⟨recipes, -, htext⟩ := hown.argString
  have hip : r.goftraceEvent.ip = 16 := by
    rw [hevent]
    rfl
  have huprobe := hown.uprobe
  rw [hip] at huprobe
  rw [huprobe, Option.map_some, Option.some.injEq, Prod.mk.injEq] at hprobe
  have hrender : renderEventArgs grownConfig r.uprobe r.goftraceEvent recipes = "x=2" := by
    unfold renderEventArgs
    rw [hprobe.1, hprobe.2, hevent, if_pos rfl]
    decide +kernel
  rw [List.map_singleton, htext, hrender] at htexts
  exact absurd (List.cons.inj htexts).1 (by decide)

/-- The entry comes twice, with the same argument. -/
theorem grownEntry_ownArgs :
    let arrivals := sampleArrivals [grownEntry 1, grownEntry 1]
    (∀ k, ∀ r ∈ (handleAll grownConfig {} arrivals).1.events k,
        OwnArgs grownConfig (SeenRecipes grownConfig arrivals) r) ∧
      ∀ o ∈ (handleAll grownConfig {} arrivals).2, ∀ r ∈ o.records,
        OwnArgs grownConfig (SeenRecipes grownConfig arrivals) r := by
  intro arrivals
  have hfirst : (replaced grownConfig {} (grownEntry 1)).map (·.goftraceEvent) = none := by
    decide +kernel
  have hsecond : (replaced grownConfig (handleAll grownConfig {} (sampleArrivals [grownEntry 1])).1
      (grownEntry 1)).map (·.goftraceEvent) = some (grownEntry 1) := by decide +kernel
  have hrepeats : RepeatsArgs grownConfig arrivals := by
    intro before a hpre last hlast
    match before, hpre with
    | [], hpre =>
      obtain rfl := (List.cons_prefix_cons.mp hpre).1
      rw [handleAll] at hlast
      rw [hlast] at hfirst
      cases hfirst
    | [b], hpre =>
      obtain ⟨rfl, hrest⟩ := List.cons_prefix_cons.mp hpre
      obtain rfl := (List.cons_prefix_cons.mp hrest).1
      have hfound : some last.goftraceEvent = some (grownEntry 1) := by
        rw [← hsecond]
        exact (congrArg (Option.map fun r => r.goftraceEvent) hlast).symm
      rw [Option.some.inj hfound]
      exact ⟨rfl, rfl⟩
    | _ :: _ :: before, hpre =>
      have hlen := hpre.length_le
      simp only [List.length_append, List.length_cons, arrivals, sampleArrivals, List.map_cons,
        List.map_nil, List.length_nil] at hlen
      omega
  exact handleAll_ownArgs arrivals hrepeats arrivals (List.prefix_refl _)

end GoFtrace.EventManager
