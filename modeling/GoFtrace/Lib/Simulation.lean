import Mathlib.Data.List.Basic

/-!
# Runs and simulations

A system is a relation between a state, a move and the next state. A simulation maps its states
to those of another system and its moves to moves there, or to none.

* `Run.eq_foldl`: the run of a function is a fold.
* `Simulation.run`: a run is mapped to a run of the moves that are not silent.
-/

namespace GoFtrace.Lib

variable {σ α τ β : Type}

/-! ## Runs -/

/-- A sequence of moves. -/
inductive Run (step : σ → α → σ → Prop) : σ → List α → σ → Prop
  | nil (s : σ) : Run step s [] s
  | cons {s s' t : σ} {a : α} {moves : List α} (hstep : step s a s') (hrun : Run step s' moves t) :
      Run step s (a :: moves) t

/-- Where a move determines the next state, so do the moves of a run. -/
theorem Run.eq_foldl {f : σ → α → σ} {s t : σ} {moves : List α}
    (hrun : Run (fun s a s' => s' = f s a) s moves t) : t = moves.foldl f s := by
  induction hrun with
  | nil => rfl
  | cons hstep _ ih => rw [ih, hstep, List.foldl_cons]

/-! ## Simulations -/

/-- Each move of `step` from a state with the invariant is the move of `spec` that `label` names;
a silent move has no label and does not change the state of `spec`. -/
structure Simulation (step : σ → α → σ → Prop) (spec : τ → β → τ → Prop) (Inv : σ → Prop)
    (abs : σ → τ) (label : α → Option β) : Prop where
  kept : ∀ {s a s'}, step s a s' → Inv s → Inv s'
  silent : ∀ {s a s'}, step s a s' → Inv s → label a = none → abs s' = abs s
  visible : ∀ {s a s' b}, step s a s' → Inv s → label a = some b → spec (abs s) b (abs s')

theorem Simulation.run {step : σ → α → σ → Prop} {spec : τ → β → τ → Prop} {Inv : σ → Prop}
    {abs : σ → τ} {label : α → Option β} (hsim : Simulation step spec Inv abs label) {s t : σ}
    {moves : List α} (hrun : Run step s moves t) (h : Inv s) :
    Inv t ∧ Run spec (abs s) (moves.filterMap label) (abs t) := by
  induction hrun with
  | nil => exact ⟨h, .nil _⟩
  | @cons s s' t a moves hstep _ ih =>
    obtain ⟨ht, hspec⟩ := ih (hsim.kept hstep h)
    refine ⟨ht, ?_⟩
    cases hlabel : label a with
    | none =>
      rw [List.filterMap_cons_none hlabel, ← hsim.silent hstep h hlabel]
      exact hspec
    | some b =>
      rw [List.filterMap_cons_some hlabel]
      exact .cons (hsim.visible hstep h hlabel) hspec

end GoFtrace.Lib
