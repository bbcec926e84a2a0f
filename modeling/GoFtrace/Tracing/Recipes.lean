import GoFtrace.Tracing.Session

/-!
# Type recipes

The manager compiles a recipe for each interface type it learns, and `SetTypeLearner` installs it
in the kernel. Events that were captured before or after are rendered with what the manager has.

* `handle_learns`: what one event adds to the recipes.
* `session_recipes`: in every session the two sides have the same recipes, and keep them.
-/

namespace GoFtrace

open Uprobe (compileTypeRecipe)

/-! ## Learning -/

namespace EventManager

/-- The recipes have grown by those of types that were not known. -/
def Learns (cfg : Config) (m m' : EventManager) : Prop :=
  ∀ t, (m'.learned t = m.learned t ∧ m'.typeRecipes t = m.typeRecipes t) ∨
    (m.learned t = false ∧ m'.learned t = true ∧ t ≠ 0 ∧
      ∃ typ, cfg.runtimeType t = some typ ∧ m'.typeRecipes t = compileTypeRecipe typ)

section
variable {cfg : Config} {m m' m'' : EventManager}

theorem Learns.refl (cfg : Config) (m : EventManager) : Learns cfg m m := fun _ => .inl ⟨rfl, rfl⟩

theorem Learns.trans (h : Learns cfg m m') (h' : Learns cfg m' m'') : Learns cfg m m'' := by
  intro t
  rcases h' t with ⟨hlearned, hrecipe⟩ | ⟨hnew, hlearned, hzero, typ, htyp, hrecipe⟩
  · rw [hlearned, hrecipe]
    exact h t
  · right
    refine ⟨?_, hlearned, hzero, typ, htyp, hrecipe⟩
    rcases h t with ⟨hsame, -⟩ | ⟨hold, -⟩
    · rw [← hsame, hnew]
    · exact hold

/-- Only the recipes and the learned types matter. -/
theorem Learns.congr (h : Learns cfg m m') (hlearned : m''.learned = m'.learned)
    (hrecipes : m''.typeRecipes = m'.typeRecipes) : Learns cfg m m'' := by
  unfold Learns
  rw [hlearned, hrecipes]
  exact h

theorem learnType_learns (cfg : Config) (env : Env) (m : EventManager) (typeAddr : UInt64) :
    Learns cfg m (learnType cfg env m typeAddr) := by
  unfold learnType
  split
  · exact .refl cfg m
  · rename_i hnew
    obtain ⟨hzero, hlearned⟩ := not_or.mp hnew
    split
    · exact .refl cfg m
    · rename_i typ htyp
      split
      · intro t
        by_cases ht : t = typeAddr
        · subst ht
          refine .inr ⟨Bool.eq_false_iff.mpr hlearned, ?_, hzero, typ, htyp, ?_⟩
          · exact Function.update_self ..
          · exact Function.update_self ..
        · exact .inl ⟨Function.update_of_ne ht .., Function.update_of_ne ht ..⟩
      · exact .refl cfg m

theorem learnInterfaceTypes_learns (cfg : Config) (env : Env) (m : EventManager)
    (probe : GoFtrace.Uprobe) (event : GoftraceEvent) :
    Learns cfg m (learnInterfaceTypes cfg env m probe event) := by
  unfold learnInterfaceTypes
  split
  · exact .refl cfg m
  · generalize typeSlots probe event = slots
    induction slots generalizing m with
    | nil => exact .refl cfg m
    | cons i slots ih => exact (learnType_learns cfg env m (argWord event i)).trans (ih _)

theorem appendEvent_learns (cfg : Config) (env : Env) (m : EventManager) (event : GoftraceEvent)
    (probe : GoFtrace.Uprobe) : Learns cfg m (appendEvent cfg env m event probe) := by
  refine (learnInterfaceTypes_learns cfg env m probe event).congr ?_ ?_
  · unfold appendEvent setProcess
    cases cfg.adaptive <;> rfl
  · unfold appendEvent setProcess
    cases cfg.adaptive <;> rfl

/-- No other part of `Handle` touches the recipes. -/
theorem learns_stepwise (cfg : Config) (env : Env) (event : GoftraceEvent) (m₀ : EventManager) :
    Stepwise cfg env event (Learns cfg m₀) where
  drop m h := by
    refine h.congr ?_ ?_
    · unfold dropStack setProcess release
      cases m.pids.lookup event.key.pid <;> cases cfg.adaptive <;> rfl
    · unfold dropStack setProcess release
      cases m.pids.lookup event.key.pid <;> cases cfg.adaptive <;> rfl
  count _ _ _ _ _ h := h
  unsuppress _ h := h
  suppress _ h := h
  pidState m h := by
    rw [pidState_eq]
    exact h
  retain m probe _ _ h := by
    unfold retain
    dsimp only
    split
    · split
      · exact h
      · split
        · exact h
        · exact h.trans (appendEvent_learns cfg env m event probe)
    · split
      · exact h
      · exact h.trans (appendEvent_learns cfg env m event probe)
  record _ _ _ h := h

theorem handle_learns (cfg : Config) (env : Env) (m : EventManager) (event : GoftraceEvent) :
    Learns cfg m (handle cfg env m event).1 :=
  (learns_stepwise cfg env event m).handle (.refl cfg m)

end

end EventManager

/-! ## Both sides -/

namespace Tracing

open Sampler (Raised)

/-- The kernel has the recipes of the types that the manager has learned, and no others. -/
structure RecipesAgree (cfg : EventManager.Config) (s : System) : Prop where
  learned : ∀ t, s.manager.learned t = true → t ≠ 0 ∧
    ∃ typ, cfg.runtimeType t = some typ ∧ s.manager.typeRecipes t = compileTypeRecipe typ ∧
      s.kernel.typeRecipes t = some (Bpf.encodeRecipe (compileTypeRecipe typ))
  unlearned : ∀ t, s.manager.learned t = false →
    s.manager.typeRecipes t = [] ∧ s.kernel.typeRecipes t = none

/-- No recipe has changed or is lost. -/
def RecipesKept (s s' : System) : Prop :=
  ∀ t, s.manager.learned t = true → s'.manager.learned t = true ∧
    s'.manager.typeRecipes t = s.manager.typeRecipes t ∧
    s'.kernel.typeRecipes t = s.kernel.typeRecipes t

section
variable {cfg : EventManager.Config} {s s' s'' : System}

theorem RecipesKept.refl (s : System) : RecipesKept s s := fun _ h => ⟨h, rfl, rfl⟩

theorem RecipesKept.trans (h : RecipesKept s s') (h' : RecipesKept s' s'') :
    RecipesKept s s'' := by
  intro t ht
  obtain ⟨hlearned, hrecipe, hkernel⟩ := h t ht
  obtain ⟨hlearned', hrecipe', hkernel'⟩ := h' t hlearned
  exact ⟨hlearned', hrecipe'.trans hrecipe, hkernel'.trans hkernel⟩

/-- Steps that leave the recipes and the manager as they are. -/
theorem RecipesAgree.congr (h : RecipesAgree cfg s) (hmanager : s'.manager = s.manager)
    (hkernel : s'.kernel.typeRecipes = s.kernel.typeRecipes) :
    RecipesAgree cfg s' ∧ RecipesKept s s' := by
  refine ⟨⟨?_, ?_⟩, fun t ht => ⟨?_, ?_, ?_⟩⟩
  · rw [hmanager, hkernel]
    exact h.learned
  · rw [hmanager, hkernel]
    exact h.unlearned
  · rw [hmanager]
    exact ht
  · rw [hmanager]
  · rw [hkernel]

/-- A type that the manager learns is installed in the kernel. -/
theorem RecipesAgree.deliver (h : RecipesAgree cfg s) (env : EventManager.Env) :
    RecipesAgree cfg (s.deliverStep cfg env) ∧ RecipesKept s (s.deliverStep cfg env) := by
  unfold System.deliverStep
  cases s.kernel.eventQueue with
  | nil => exact ⟨h, .refl s⟩
  | cons event queue =>
    have hlearns := EventManager.handle_learns cfg env s.manager event
    dsimp only
    generalize (EventManager.handle cfg env s.manager event).1 = m at hlearns ⊢
    refine ⟨⟨fun t ht => ?_, fun t ht => ?_⟩, fun t ht => ?_⟩
    · dsimp only at ht ⊢
      rcases hlearns t with ⟨hlearned, hrecipe⟩ | ⟨hnew, -, hzero, typ, htyp, hrecipe⟩
      · rw [hlearned] at ht
        rw [hrecipe, installed, hlearned, ht]
        exact h.learned t ht
      · refine ⟨hzero, typ, htyp, hrecipe, ?_⟩
        rw [installed, ht, hnew, hrecipe]
        rfl
    · dsimp only at ht ⊢
      rcases hlearns t with ⟨hlearned, hrecipe⟩ | ⟨-, hlearned, -⟩
      · rw [hrecipe, installed, ht]
        exact h.unlearned t (hlearned.symm.trans ht)
      · exact absurd (hlearned.symm.trans ht) (by decide)
    · dsimp only
      rcases hlearns t with ⟨hlearned, hrecipe⟩ | ⟨hnew, -⟩
      · refine ⟨hlearned.trans ht, hrecipe, ?_⟩
        rw [installed, hlearned, ht]
        rfl
      · exact absurd (hnew.symm.trans ht) (by decide)

end

namespace Session

section
variable {bcfg : Bpf.Config} {cfg : EventManager.Config} {raise : Raised} {ncpu : Nat}
  {s : Session}

theorem setDenominator_system (s : Session) (r : Sampler.RateSampler × UInt32 × Bool) :
    (s.setDenominator r).system.manager = s.system.manager ∧
      (s.setDenominator r).system.kernel.typeRecipes = s.system.kernel.typeRecipes := by
  unfold setDenominator
  split <;> exact ⟨rfl, rfl⟩

theorem recipes_step (h : RecipesAgree cfg s.system) (move : Move ncpu) :
    RecipesAgree cfg (s.step bcfg cfg raise move).system ∧
      RecipesKept s.system (s.step bcfg cfg raise move).system := by
  cases move with
  | hit cpu program hit =>
    have hsettings := program_settings bcfg s.system.kernel program hit
    exact h.congr rfl (congrArg Prod.snd hsettings)
  | handle env => exact h.deliver env
  | sampling heapAlloc =>
    obtain ⟨hmanager, hkernel⟩ := setDenominator_system (s.closeWindow heapAlloc).1
      (s.sampler.adjust raise (s.closeWindow heapAlloc).2)
    exact h.congr hmanager hkernel
  | summary => exact h.congr rfl rfl

theorem recipes_run (moves : List (Move ncpu)) (h : RecipesAgree cfg s.system) :
    RecipesAgree cfg (s.run bcfg cfg raise moves).system ∧
      RecipesKept s.system (s.run bcfg cfg raise moves).system := by
  induction moves generalizing s with
  | nil => exact ⟨h, .refl _⟩
  | cons move moves ih =>
    obtain ⟨hagree, hkept⟩ := @recipes_step bcfg cfg raise ncpu s h move
    obtain ⟨hagree', hkept'⟩ := ih hagree
    exact ⟨hagree', hkept.trans hkept'⟩

end

/-- At any point of a session the kernel and the manager have the same recipes, each compiled
from the type that its address names. A recipe that the kernel has is the one that the manager
renders with from then on, however long an event waits in the queue. -/
theorem session_recipes (bcfg : Bpf.Config) (cfg : EventManager.Config) (raise : Raised)
    (adaptiveSample : Bool) (memoryLimit : UInt64) {ncpu : Nat} (heapAlloc : UInt64)
    (moves later : List (Move ncpu)) :
    let s := (start raise adaptiveSample memoryLimit ncpu heapAlloc).run bcfg cfg raise moves
    let s' := s.run bcfg cfg raise later
    RecipesAgree cfg s.system ∧
      ∀ t r, s.system.kernel.typeRecipes t = some r →
        s'.system.kernel.typeRecipes t = some r ∧
          r = Bpf.encodeRecipe (s'.system.manager.typeRecipes t) := by
  intro s s'
  have hstart : RecipesAgree cfg (start raise adaptiveSample memoryLimit ncpu heapAlloc).system := by
    obtain ⟨hmanager, hkernel⟩ := setDenominator_system
      { cpus := List.replicate ncpu {}
        sampler := Sampler.RateSampler.choose adaptiveSample memoryLimit }
      ((Sampler.RateSampler.choose adaptiveSample memoryLimit).adjust raise
        { heapAlloc := heapAlloc, lossRate := 0 })
    have hempty : RecipesAgree cfg {} := by
      refine ⟨fun t ht => ?_, fun _ _ => ⟨rfl, rfl⟩⟩
      cases ht
    exact (hempty.congr hmanager hkernel).1
  obtain ⟨hagree, -⟩ := @recipes_run bcfg cfg raise ncpu _ moves hstart
  obtain ⟨-, hkept⟩ := @recipes_run bcfg cfg raise ncpu _ later hagree
  refine ⟨hagree, fun t r hr => ?_⟩
  cases ht : s.system.manager.learned t with
  | false => exact absurd ((hagree.unlearned t ht).2.symm.trans hr) (by simp)
  | true =>
    obtain ⟨-, typ, -, hrecipe, hkernel⟩ := hagree.learned t ht
    obtain ⟨-, hrecipe', hkernel'⟩ := hkept t ht
    refine ⟨hkernel'.trans hr, ?_⟩
    rw [hrecipe', hrecipe]
    exact Option.some.inj (hr.symm.trans hkernel)

end Session

end Tracing

end GoFtrace
