import GoFtrace.Bpf.Trace

/-!
# One goroutine

What the probe programs do for one `(pid, goid)`. A step of the kernel side changes the
trace state of a key, and attempts an event for it, as a function of that trace state and
of the sample denominator alone.

* `step_state`, `step_event`: the kernel maps, seen from one key, are this machine.
-/

namespace GoFtrace.Bpf

/-- The event without its leaves. -/
def Event.bare (e : Event) : Event :=
  { e with argCount := 0, args := Vector.replicate maxArgs ArgData.zero }

@[simp] theorem Event.bare_key (e : Event) : e.bare.key = e.key := rfl

@[simp] theorem Event.bare_withLeaves (e : Event) (ls : List ArgData) :
    (e.withLeaves ls).bare = e.bare := rfl

@[simp] theorem bare_fetchInto (cfg : Config) (m : Maps) (h : Hit) (e : Event) :
    (fetchInto cfg m h e).bare = e.bare := by
  unfold fetchInto
  split
  · split <;> rfl
  · rfl

@[simp] theorem key_fetchInto (cfg : Config) (m : Maps) (h : Hit) (e : Event) :
    (fetchInto cfg m h e).key = e.key := by
  rw [← Event.bare_key, bare_fetchInto, Event.bare_key]

@[simp] theorem Hit.entryEvent_key (h : Hit) : h.entryEvent.key = h.key := rfl

@[simp] theorem Hit.retEvent_key (h : Hit) : h.retEvent.key = h.key := rfl

@[simp] theorem Hit.exitEvent_key (h : Hit) : h.exitEvent.key = h.key := rfl

/-! ## The machine -/

/-- Whether `ent` starts to trace an idle goroutine. -/
def admits (cfg : Config) (denominator : UInt32) (h : Hit) : Bool :=
  cfg.shouldTraceRip h.regs.ip && shouldSample denominator h.random && h.insertOk

/-- `ent` for the goroutine that it interrupts. -/
def entLocal (cfg : Config) (denominator : UInt32) (h : Hit) :
    Option TraceState → Option TraceState × Option Event
  | none =>
    if admits cfg denominator h then
      (some (.initial h.entryEvent denominator), some (rootEvent cfg denominator h))
    else (none, none)
  | some st =>
    (if st.overrun cfg then none else some (st.entered cfg h.entryEvent),
      some (st.entryEvent cfg h))

/-- `ret` for the goroutine that it interrupts. -/
def retLocal (cfg : Config) (h : Hit) :
    Option TraceState → Option TraceState × Option Event
  | none => (none, none)
  | some st =>
    (if st.ends cfg h.regs.ip || st.overrun cfg then none
      else some (st.returned cfg h.regs.ip),
      some (st.retEvent cfg h))

/-- `goroutine_exit` for the goroutine that it interrupts. -/
def exitLocal (h : Hit) : Option TraceState → Option TraceState × Option Event
  | none => (none, none)
  | some _ => (none, some h.exitEvent)

/-- One step of the kernel side, for the goroutine `k`. -/
def stepLocal (cfg : Config) (denominator : UInt32) (k : GoidKey) (a : Action)
    (st : Option TraceState) : Option TraceState × Option Event :=
  match a with
  | .ent h => if h.key = k then entLocal cfg denominator h st else (st, none)
  | .ret h => if h.key = k then retLocal cfg h st else (st, none)
  | .goroutineExit h => if h.key = k then exitLocal h st else (st, none)
  | .setSampleDenominator _ => (st, none)
  | .setTypeRecipe _ _ => (st, none)

/-! ## The maps as seen from one key -/

@[simp] theorem bare_rootEvent (cfg : Config) (d : UInt32) (h : Hit) :
    (rootEvent cfg d h).bare = rootEvent cfg d h := rfl

@[simp] theorem TraceState.bare_entryEvent (st : TraceState) (cfg : Config) (h : Hit) :
    (st.entryEvent cfg h).bare = st.entryEvent cfg h := rfl

@[simp] theorem TraceState.bare_retEvent (st : TraceState) (cfg : Config) (h : Hit) :
    (st.retEvent cfg h).bare = st.retEvent cfg h := rfl

@[simp] theorem finish_event (h : Hit) (m : Maps) (e : Event) (past : Bool) :
    (finish h m e past).2 = some e := rfl

theorem finish_state (h : Hit) (m : Maps) (e : Event) (past : Bool) :
    (finish h m e past).1.shouldTraceGoid =
      if past then Function.update m.shouldTraceGoid h.key none else m.shouldTraceGoid := by
  cases past <;> simp [finish, Maps.deleteState_shouldTraceGoid]

@[simp] theorem countAborted_state (m : Maps) (past : Bool) :
    (m.countAborted past).shouldTraceGoid = m.shouldTraceGoid := by
  cases past <;> rfl

theorem ent_event (cfg : Config) (h : Hit) (m : Maps) :
    (ent cfg h m).2.map Event.bare =
      (entLocal cfg m.currentSampleDenominator h (m.shouldTraceGoid h.key)).2 := by
  unfold ent entLocal admits
  cases m.shouldTraceGoid h.key with
  | none =>
    by_cases hw : cfg.shouldTraceRip h.regs.ip
    · by_cases hs : shouldSample m.currentSampleDenominator h.random
      · by_cases hi : h.insertOk <;> simp [hw, hs, hi]
      · simp [hw, hs]
    · simp [hw]
  | some st => simp

theorem ent_state (cfg : Config) (h : Hit) (m : Maps) :
    (ent cfg h m).1.shouldTraceGoid = Function.update m.shouldTraceGoid h.key
      (entLocal cfg m.currentSampleDenominator h (m.shouldTraceGoid h.key)).1 := by
  unfold ent entLocal admits
  cases hst : m.shouldTraceGoid h.key with
  | none =>
    have hself : Function.update m.shouldTraceGoid h.key none = m.shouldTraceGoid := by
      rw [← hst, Function.update_eq_self]
    by_cases hw : cfg.shouldTraceRip h.regs.ip
    · by_cases hs : shouldSample m.currentSampleDenominator h.random
      · by_cases hi : h.insertOk
        · simp [hw, hs, hi, finish_state, Maps.setState_shouldTraceGoid]
        · simp [hw, hs, hi, hself]
      · simp [hw, hs, hself]
    · simp [hw, hself]
  | some st =>
    cases ho : st.overrun cfg <;> simp [ho, finish_state, Maps.setState_shouldTraceGoid]

theorem ret_event (cfg : Config) (h : Hit) (m : Maps) :
    (ret cfg h m).2.map Event.bare = (retLocal cfg h (m.shouldTraceGoid h.key)).2 := by
  unfold ret retLocal
  cases m.shouldTraceGoid h.key with
  | none => rfl
  | some st => simp

theorem ret_state (cfg : Config) (h : Hit) (m : Maps) :
    (ret cfg h m).1.shouldTraceGoid = Function.update m.shouldTraceGoid h.key
      (retLocal cfg h (m.shouldTraceGoid h.key)).1 := by
  unfold ret retLocal
  cases hst : m.shouldTraceGoid h.key with
  | none =>
    have hself : Function.update m.shouldTraceGoid h.key none = m.shouldTraceGoid := by
      rw [← hst, Function.update_eq_self]
    exact hself.symm
  | some st =>
    cases ho : st.overrun cfg <;> cases he : st.ends cfg h.regs.ip <;>
      simp [ho, he, finish_state, Maps.setState_shouldTraceGoid]

theorem goroutineExit_event (h : Hit) (m : Maps) :
    (goroutineExit h m).2.map Event.bare = (exitLocal h (m.shouldTraceGoid h.key)).2 := by
  unfold goroutineExit exitLocal
  cases m.shouldTraceGoid h.key <;> rfl

theorem goroutineExit_state (h : Hit) (m : Maps) :
    (goroutineExit h m).1.shouldTraceGoid = Function.update m.shouldTraceGoid h.key
      (exitLocal h (m.shouldTraceGoid h.key)).1 := by
  unfold goroutineExit exitLocal
  cases hst : m.shouldTraceGoid h.key with
  | none =>
    have hself : Function.update m.shouldTraceGoid h.key none = m.shouldTraceGoid := by
      rw [← hst, Function.update_eq_self]
    exact hself.symm
  | some st => simp [Maps.deleteState_shouldTraceGoid]

/-- The key of an attempted event is the key of the interrupted goroutine. -/
theorem entLocal_key {cfg : Config} {d : UInt32} {h : Hit} {st : Option TraceState} {e : Event}
    (he : (entLocal cfg d h st).2 = some e) : e.key = h.key := by
  unfold entLocal at he
  cases st with
  | none =>
    dsimp only at he
    split at he
    · cases he
      rfl
    · cases he
  | some st =>
    cases he
    rfl

theorem retLocal_key {cfg : Config} {h : Hit} {st : Option TraceState} {e : Event}
    (he : (retLocal cfg h st).2 = some e) : e.key = h.key := by
  cases st with
  | none => cases he
  | some st =>
    cases he
    rfl

theorem exitLocal_key {h : Hit} {st : Option TraceState} {e : Event}
    (he : (exitLocal h st).2 = some e) : e.key = h.key := by
  cases st with
  | none => cases he
  | some st =>
    cases he
    rfl

/-- A step changes the trace state of `k` as the machine of `k` does. -/
theorem step_state (cfg : Config) (m : Maps) (k : GoidKey) (a : Action) :
    (step cfg m a).1.shouldTraceGoid k =
      (stepLocal cfg m.currentSampleDenominator k a (m.shouldTraceGoid k)).1 := by
  cases a with
  | ent h =>
    by_cases hk : h.key = k
    · subst hk
      simp [step, stepLocal, ent_state]
    · simp [step, stepLocal, ent_state, hk, Ne.symm hk]
  | ret h =>
    by_cases hk : h.key = k
    · subst hk
      simp [step, stepLocal, ret_state]
    · simp [step, stepLocal, ret_state, hk, Ne.symm hk]
  | goroutineExit h =>
    by_cases hk : h.key = k
    · subst hk
      simp [step, stepLocal, goroutineExit_state]
    · simp [step, stepLocal, goroutineExit_state, hk, Ne.symm hk]
  | setSampleDenominator d => rfl
  | setTypeRecipe t r => rfl

/-- The attempts of one goroutine among those of a step. -/
theorem filter_attempt {x y : Option Event} {k' k : GoidKey} (hxy : x.map Event.bare = y)
    (hkey : ∀ e, y = some e → e.key = k') :
    (x.filter fun e => e.key = k).map Event.bare = if k' = k then y else none := by
  cases x with
  | none =>
    cases hxy
    simp
  | some e =>
    have hek : e.key = k' := by
      rw [← Event.bare_key]
      exact hkey _ hxy.symm
    subst hxy
    by_cases hk : k' = k <;> simp [Option.filter, hek, hk]

/-- A step attempts the event for `k` that the machine of `k` attempts. -/
theorem step_event (cfg : Config) (m : Maps) (k : GoidKey) (a : Action) :
    (((step cfg m a).2).filter fun e => e.key = k).map Event.bare =
      (stepLocal cfg m.currentSampleDenominator k a (m.shouldTraceGoid k)).2 := by
  cases a with
  | ent h =>
    have hx := filter_attempt (k := k) (ent_event cfg h m) (fun e he => entLocal_key he)
    by_cases hk : h.key = k
    · subst hk
      simpa [step, stepLocal] using hx
    · simpa [step, stepLocal, hk] using hx
  | ret h =>
    have hx := filter_attempt (k := k) (ret_event cfg h m) (fun e he => retLocal_key he)
    by_cases hk : h.key = k
    · subst hk
      simpa [step, stepLocal] using hx
    · simpa [step, stepLocal, hk] using hx
  | goroutineExit h =>
    have hx := filter_attempt (k := k) (goroutineExit_event h m) (fun e he => exitLocal_key he)
    by_cases hk : h.key = k
    · subst hk
      simpa [step, stepLocal] using hx
    · simpa [step, stepLocal, hk] using hx
  | setSampleDenominator d => rfl
  | setTypeRecipe t r => rfl

/-! ## The cases of a step -/

/-- What one step does to the trace state of `k` and which event it attempts for it. -/
inductive LocalStep (cfg : Config) (denominator : UInt32) (k : GoidKey) :
    Action → Option TraceState → Option TraceState → Option Event → Prop
  /-- Nothing happens to `k`. -/
  | idle {a st} : LocalStep cfg denominator k a st st none
  /-- A root call is admitted. -/
  | start {h} (hk : h.key = k) (ha : admits cfg denominator h = true) :
      LocalStep cfg denominator k (.ent h) none
        (some (.initial h.entryEvent denominator)) (some (rootEvent cfg denominator h))
  | entry {h st} (hk : h.key = k) (ho : st.overrun cfg = false) :
      LocalStep cfg denominator k (.ent h) (some st)
        (some (st.entered cfg h.entryEvent)) (some (st.entryEvent cfg h))
  | entryAbort {h st} (hk : h.key = k) (ho : st.overrun cfg = true) :
      LocalStep cfg denominator k (.ent h) (some st) none (some (st.entryEvent cfg h))
  | ret {h st} (hk : h.key = k) (ho : st.overrun cfg = false)
      (he : st.ends cfg h.regs.ip = false) :
      LocalStep cfg denominator k (.ret h) (some st)
        (some (st.returned cfg h.regs.ip)) (some (st.retEvent cfg h))
  | retEnd {h st} (hk : h.key = k) (he : st.ends cfg h.regs.ip = true) :
      LocalStep cfg denominator k (.ret h) (some st) none (some (st.retEvent cfg h))
  | retAbort {h st} (hk : h.key = k) (ho : st.overrun cfg = true)
      (he : st.ends cfg h.regs.ip = false) :
      LocalStep cfg denominator k (.ret h) (some st) none (some (st.retEvent cfg h))
  | exit {h st} (hk : h.key = k) :
      LocalStep cfg denominator k (.goroutineExit h) (some st) none (some h.exitEvent)

theorem stepLocal_cases (cfg : Config) (d : UInt32) (k : GoidKey) (a : Action)
    (st : Option TraceState) :
    LocalStep cfg d k a st (stepLocal cfg d k a st).1 (stepLocal cfg d k a st).2 := by
  unfold stepLocal
  cases a with
  | ent h =>
    dsimp only
    split
    · rename_i hk
      cases st with
      | none =>
        unfold entLocal
        dsimp only
        split
        · rename_i ha
          exact .start hk ha
        · exact .idle
      | some st =>
        unfold entLocal
        dsimp only
        split
        · rename_i ho
          exact .entryAbort hk ho
        · rename_i ho
          exact .entry hk (Bool.not_eq_true _ ▸ ho)
    · exact .idle
  | ret h =>
    dsimp only
    split
    · rename_i hk
      cases st with
      | none => exact .idle
      | some st =>
        unfold retLocal
        dsimp only
        cases he : st.ends cfg h.regs.ip
        · cases ho : st.overrun cfg
          · exact .ret hk ho he
          · exact .retAbort hk ho he
        · exact .retEnd hk he
    · exact .idle
  | goroutineExit h =>
    dsimp only
    split
    · rename_i hk
      cases st with
      | none => exact .idle
      | some st => exact .exit hk
    · exact .idle
  | setSampleDenominator d => exact .idle
  | setTypeRecipe t r => exact .idle

/-! ## The queue -/

/-- The goroutine that a probe hit interrupts. -/
def Action.goroutine : Action → Option GoidKey
  | .ent h => some h.key
  | .ret h => some h.key
  | .goroutineExit h => some h.key
  | .setSampleDenominator _ => none
  | .setTypeRecipe _ _ => none

/-- Only a hit of its own attempts an event for a goroutine. -/
theorem LocalStep.goroutine_eq {cfg : Config} {d : UInt32} {k : GoidKey} {a : Action}
    {st st' : Option TraceState} {e : Event} (h : LocalStep cfg d k a st st' (some e)) :
    a.goroutine = some k := by
  cases h with
  | start hk ha => exact congrArg some hk
  | entry hk ho => exact congrArg some hk
  | entryAbort hk ho => exact congrArg some hk
  | ret hk ho he => exact congrArg some hk
  | retEnd hk he => exact congrArg some hk
  | retAbort hk ho he => exact congrArg some hk
  | exit hk => exact congrArg some hk

/-- Whether the queue takes the event that the step attempts. -/
def Action.pushOk : Action → Bool
  | .ent h => h.pushOk
  | .ret h => h.pushOk
  | .goroutineExit h => h.pushOk
  | .setSampleDenominator _ => true
  | .setTypeRecipe _ _ => true

theorem pushEvent_eventQueue (m : Maps) (ok : Bool) (e : Event) :
    (m.pushEvent ok e).eventQueue = m.eventQueue ++ if ok then [e] else [] := by
  cases ok <;> simp [Maps.pushEvent]

@[simp] theorem countAborted_eventQueue (m : Maps) (past : Bool) :
    (m.countAborted past).eventQueue = m.eventQueue := by
  cases past <;> rfl

theorem finish_eventQueue (h : Hit) (m : Maps) (e : Event) (past : Bool) :
    (finish h m e past).1.eventQueue = m.eventQueue ++ if h.pushOk then [e] else [] := by
  rw [← pushEvent_eventQueue]
  cases past <;> rfl

/-- A step adds the event it attempts to the queue, when there is room. -/
theorem step_eventQueue (cfg : Config) (m : Maps) (a : Action) :
    (step cfg m a).1.eventQueue =
      m.eventQueue ++ if a.pushOk then (step cfg m a).2.toList else [] := by
  cases a with
  | ent h =>
    change (ent cfg h m).1.eventQueue =
      m.eventQueue ++ if h.pushOk then (ent cfg h m).2.toList else []
    unfold ent
    split
    · split
      · simp
      · dsimp only
        split
        · simp [Maps.count]
        · split
          · simp [Maps.count]
          · rw [finish_eventQueue]
            rfl
    · dsimp only
      rw [finish_eventQueue, countAborted_eventQueue]
      rfl
  | ret h =>
    change (ret cfg h m).1.eventQueue =
      m.eventQueue ++ if h.pushOk then (ret cfg h m).2.toList else []
    unfold ret
    split
    · simp
    · dsimp only
      rw [finish_eventQueue, countAborted_eventQueue]
      rfl
  | goroutineExit h =>
    change (goroutineExit h m).1.eventQueue =
      m.eventQueue ++ if h.pushOk then (goroutineExit h m).2.toList else []
    unfold goroutineExit
    split
    · simp
    · rw [pushEvent_eventQueue]
      rfl
  | setSampleDenominator d => simp [step, Maps.setSampleDenominator]
  | setTypeRecipe t r => simp [step, Maps.setTypeRecipe]

/-! ## The maps that userspace writes -/

/-- The sample denominator and the type recipes. -/
def Maps.settings (m : Maps) : UInt32 × (UInt64 → Option TypeRecipe) :=
  (m.sampleDenominator, m.typeRecipes)

theorem countAborted_settings (m : Maps) (past : Bool) :
    (m.countAborted past).settings = m.settings := by
  cases past <;> rfl

theorem finish_settings (h : Hit) (m : Maps) (e : Event) (past : Bool) :
    (finish h m e past).1.settings = m.settings := by
  unfold finish Maps.pushEvent
  cases h.pushOk <;> cases past <;> rfl

/-- The programs write neither. -/
theorem ent_settings (cfg : Config) (h : Hit) (m : Maps) :
    (ent cfg h m).1.settings = m.settings := by
  unfold ent
  split
  · split
    · rfl
    · dsimp only
      split
      · rfl
      · split
        · rfl
        · rw [finish_settings]
          rfl
  · dsimp only
    rw [finish_settings, countAborted_settings]
    rfl

theorem ret_settings (cfg : Config) (h : Hit) (m : Maps) :
    (ret cfg h m).1.settings = m.settings := by
  unfold ret
  split
  · rfl
  · dsimp only
    rw [finish_settings, countAborted_settings]
    rfl

theorem goroutineExit_settings (h : Hit) (m : Maps) :
    (goroutineExit h m).1.settings = m.settings := by
  unfold goroutineExit Maps.pushEvent
  split
  · rfl
  · cases h.pushOk <;> rfl

/-! ## Denominators -/

section
variable {cfg : Config} {P : UInt32 → Prop}

theorem LocalStep.denominators {d : UInt32} {k : GoidKey} {a : Action}
    {st st' : Option TraceState} {e : Option Event} (h : LocalStep cfg d k a st st' e)
    (hd : P d) (hst : ∀ s, st = some s → P s.sampleDenominator) :
    (∀ s, st' = some s → P s.sampleDenominator) ∧
      ∀ e', e = some e' → e'.location = goroutineExitPoint ∨ P e'.sampleDenominator := by
  cases h with
  | idle => exact ⟨hst, nofun⟩
  | start =>
    refine ⟨?_, ?_⟩
    · rintro _ ⟨⟩
      exact hd
    · rintro _ ⟨⟩
      exact .inr hd
  | entry | ret =>
    have hold := hst _ rfl
    refine ⟨?_, ?_⟩
    · rintro _ ⟨⟩
      exact hold
    · rintro _ ⟨⟩
      exact .inr hold
  | entryAbort | retEnd | retAbort =>
    refine ⟨nofun, ?_⟩
    rintro _ ⟨⟩
    exact .inr (hst _ rfl)
  | exit =>
    refine ⟨nofun, ?_⟩
    rintro _ ⟨⟩
    exact .inl rfl

/-- The denominators of the states and of the events come from the current one. -/
theorem step_denominators {m : Maps} (hcurrent : P m.currentSampleDenominator)
    (hstates : ∀ k st, m.shouldTraceGoid k = some st → P st.sampleDenominator) (a : Action) :
    (∀ k st, (step cfg m a).1.shouldTraceGoid k = some st → P st.sampleDenominator) ∧
      ∀ e, (step cfg m a).2 = some e →
        e.location = goroutineExitPoint ∨ P e.sampleDenominator := by
  have hlocal : ∀ k, LocalStep cfg m.currentSampleDenominator k a (m.shouldTraceGoid k)
      ((step cfg m a).1.shouldTraceGoid k)
      (((step cfg m a).2.filter fun e => e.key = k).map Event.bare) := by
    intro k
    rw [step_state, step_event]
    exact stepLocal_cases cfg _ k a _
  refine ⟨fun k => ((hlocal k).denominators hcurrent (hstates k)).1, fun e he => ?_⟩
  have hown := ((hlocal e.key).denominators hcurrent (hstates e.key)).2 e.bare
  rw [he] at hown
  exact hown (by simp [Option.filter])

end

end GoFtrace.Bpf
