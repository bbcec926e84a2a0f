import Mathlib.Data.List.Perm.Basic

/-!
# Tasks under a semaphore

Each task is taken from a list, in order, by a worker of its own. A worker needs a permit of a
semaphore, which it gives back after its task.

* `Serves.step`: no more workers than permits, and no task is lost or repeated.
* `Serves.done`: when the list is empty and all permits are back, every task is done.
* `exists_step`, `Step.work_lt`: until then there is a step, and every step is progress.
-/

namespace GoFtrace.Lib

/-- The tasks that are not started, those with a worker on them, and those that are done. -/
structure Pool (α : Type) where
  todo : List α
  working : List α := []
  /-- The workers that are done and have not given their permit back. -/
  leaving : Nat := 0
  done : List α := []

namespace Pool

variable {α : Type} {limit : Nat} {tasks : List α} {p p' : Pool α}

/-- The permits in use. -/
def held (p : Pool α) : Nat := p.working.length + p.leaving

/-- Nothing is left to start and all permits are back. -/
def Drained (p : Pool α) : Prop := p.todo = [] ∧ p.held = 0

/-- A task is started, a task is finished, or a permit is given back. -/
inductive Step (limit : Nat) : Pool α → Pool α → Prop
  | start {p : Pool α} {x : α} {todo : List α} (htodo : p.todo = x :: todo)
      (hfree : p.held < limit) :
      Step limit p { p with todo := todo, working := p.working ++ [x] }
  | finish {p : Pool α} {x : α} {xs ys : List α} (hworking : p.working = xs ++ x :: ys) :
      Step limit p
        { p with working := xs ++ ys, leaving := p.leaving + 1, done := p.done ++ [x] }
  | release {p : Pool α} {n : Nat} (hleaving : p.leaving = n + 1) :
      Step limit p { p with leaving := n }

/-- What a pool of the given tasks keeps. -/
structure Serves (tasks : List α) (limit : Nat) (p : Pool α) : Prop where
  held : p.held ≤ limit
  tasks : (p.done ++ p.working ++ p.todo).Perm tasks

theorem serves_fresh (tasks : List α) (limit : Nat) : Serves tasks limit { todo := tasks } where
  held := Nat.zero_le _
  tasks := List.Perm.refl _

theorem Serves.step (h : Serves tasks limit p) (hstep : Step limit p p') :
    Serves tasks limit p' := by
  cases hstep with
  | start htodo hfree =>
    refine ⟨?_, ?_⟩
    · show (p.working ++ [_]).length + p.leaving ≤ limit
      rw [List.length_append, List.length_singleton]
      unfold Pool.held at hfree
      omega
    · have htasks := h.tasks
      rw [htodo] at htasks
      show (p.done ++ (p.working ++ [_]) ++ _).Perm tasks
      rwa [← List.append_assoc, List.append_assoc, List.singleton_append]
  | @finish x xs ys hworking =>
    refine ⟨?_, ?_⟩
    · have hheld := h.held
      show (xs ++ ys).length + (p.leaving + 1) ≤ limit
      unfold Pool.held at hheld
      rw [hworking] at hheld
      simp only [List.length_append, List.length_cons] at hheld ⊢
      omega
    · refine List.Perm.trans ?_ h.tasks
      show (p.done ++ [x] ++ (xs ++ ys) ++ p.todo).Perm _
      rw [hworking, List.append_assoc p.done, List.singleton_append]
      exact (List.perm_middle.symm.append_left p.done).append_right p.todo
  | release hleaving =>
    refine ⟨?_, h.tasks⟩
    have hheld := h.held
    unfold Pool.held at hheld
    rw [hleaving] at hheld
    exact Nat.le_of_succ_le hheld

/-- A task is started at most as often as it is given. -/
theorem Serves.started (h : Serves tasks limit p) : (p.done ++ p.working).Subperm tasks :=
  (List.sublist_append_left _ _).subperm.trans h.tasks.subperm

theorem Serves.done (h : Serves tasks limit p) (hdrained : p.Drained) : p.done.Perm tasks := by
  have hworking : p.working = [] :=
    List.length_eq_zero_iff.mp (Nat.eq_zero_of_add_eq_zero hdrained.2).1
  have htasks := h.tasks
  rwa [hworking, hdrained.1, List.append_nil, List.append_nil] at htasks

theorem Drained.not_step (h : p.Drained) : ¬Step limit p p' := by
  obtain ⟨hworking, hleaving⟩ := Nat.eq_zero_of_add_eq_zero h.2
  intro hstep
  cases hstep with
  | start htodo => cases h.1.symm.trans htodo
  | finish hfinish => simp [hfinish] at hworking
  | release hrelease => cases hleaving.symm.trans hrelease

theorem exists_step (hlimit : 0 < limit) (hp : ¬p.Drained) : ∃ p', Step limit p p' := by
  by_cases hheld : p.held = 0
  · have htodo : p.todo ≠ [] := fun h => hp ⟨h, hheld⟩
    obtain ⟨x, todo, hcons⟩ := List.exists_cons_of_ne_nil htodo
    exact ⟨_, .start hcons (hheld ▸ hlimit)⟩
  · cases hworking : p.working with
    | cons x xs => exact ⟨_, @Step.finish _ _ _ x [] xs hworking⟩
    | nil =>
      have hleaving : p.leaving ≠ 0 := by
        unfold Pool.held at hheld
        rwa [hworking, List.length_nil, Nat.zero_add] at hheld
      obtain ⟨n, hn⟩ := Nat.exists_eq_succ_of_ne_zero hleaving
      exact ⟨_, .release hn⟩

/-- The steps that are left. -/
def work (p : Pool α) : Nat := 3 * p.todo.length + 2 * p.working.length + p.leaving

theorem Step.work_lt (hstep : Step limit p p') : p'.work < p.work := by
  cases hstep with
  | start htodo =>
    simp only [work, htodo, List.length_append, List.length_cons, List.length_nil]
    omega
  | finish hworking =>
    simp only [work, hworking, List.length_append, List.length_cons]
    omega
  | release hleaving =>
    simp only [work]
    omega

end Pool

end GoFtrace.Lib
