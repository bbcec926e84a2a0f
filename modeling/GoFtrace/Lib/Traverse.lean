import Mathlib.Data.List.Forall2

/-!
# Traversals that may fail

`mapM` of a list in `Except` and in `Option`.

* `mapM_ok_iff`: the results of a traversal that succeeds.
* `mapM_cases`: a traversal succeeds, or stops at the first error.
-/

namespace GoFtrace.Lib

section
variable {α β ε : Type} {f : α → Except ε β} {l : List α} {r : List β}

/-- The results of a traversal that succeeds. -/
theorem mapM_ok (h : l.mapM f = .ok r) : List.Forall₂ (fun a b => f a = .ok b) l r := by
  induction l generalizing r with
  | nil =>
    cases h
    exact .nil
  | cons a l ih =>
    rw [List.mapM_cons] at h
    cases ha : f a with
    | error e => rw [ha] at h; cases h
    | ok b =>
      rw [ha] at h
      cases hl : l.mapM f with
      | error e => rw [hl] at h; cases h
      | ok bs =>
        rw [hl] at h
        cases h
        exact .cons ha (ih hl)

theorem mapM_ok_iff : l.mapM f = .ok r ↔ List.Forall₂ (fun a b => f a = .ok b) l r := by
  refine ⟨mapM_ok, fun h => ?_⟩
  induction h with
  | nil => rfl
  | cons ha _ ih =>
    rw [List.mapM_cons, ha]
    change (do let bs ← List.mapM f _; pure (_ :: bs)) = _
    rw [ih]
    rfl

/-- A traversal succeeds when it does at every element. -/
theorem mapM_ok_map {g : α → β} (h : ∀ a ∈ l, f a = .ok (g a)) : l.mapM f = .ok (l.map g) := by
  rw [mapM_ok_iff, List.forall₂_map_right_iff]
  apply List.forall₂_same.mpr
  exact h

/-- A traversal succeeds, or stops at the first error. -/
theorem mapM_cases (f : α → Except ε β) (l : List α) :
    ((∃ r, l.mapM f = .ok r) ∧ ∀ a ∈ l, ∃ b, f a = .ok b) ∨
      ∃ before v after e, l = before ++ v :: after ∧ (∀ u ∈ before, ∃ b, f u = .ok b) ∧
        f v = .error e ∧ l.mapM f = .error e := by
  induction l with
  | nil => exact .inl ⟨⟨[], rfl⟩, nofun⟩
  | cons a l ih =>
    rw [List.mapM_cons]
    cases ha : f a with
    | error e => exact .inr ⟨[], a, l, e, rfl, nofun, ha, rfl⟩
    | ok b =>
      rcases ih with ⟨⟨r, hr⟩, hall⟩ | ⟨before, v, after, e, rfl, hbefore, hv, hl⟩
      · rw [hr]
        exact .inl ⟨⟨b :: r, rfl⟩, List.forall_mem_cons.mpr ⟨⟨b, ha⟩, hall⟩⟩
      · rw [hl]
        exact .inr ⟨a :: before, v, after, e, rfl, List.forall_mem_cons.mpr ⟨⟨b, ha⟩, hbefore⟩, hv,
          rfl⟩

theorem mapM_error {before after : List α} {v : α} {e : ε}
    (hbefore : ∀ u ∈ before, ∃ b, f u = .ok b) (hv : f v = .error e) :
    (before ++ v :: after).mapM f = .error e := by
  induction before with
  | nil =>
    rw [List.nil_append, List.mapM_cons, hv]
    rfl
  | cons u before ih =>
    obtain ⟨⟨b, hb⟩, hrest⟩ := List.forall_mem_cons.mp hbefore
    rw [List.cons_append, List.mapM_cons, hb]
    change (do let bs ← (before ++ v :: after).mapM f; pure (b :: bs)) = _
    rw [ih hrest]
    rfl

/-- Every result of a traversal is that of an element. -/
theorem mem_of_mapM (h : l.mapM f = .ok r) {b : β} (hb : b ∈ r) : ∃ a ∈ l, f a = .ok b := by
  have hall := mapM_ok h
  clear h
  induction hall with
  | nil => exact absurd hb List.not_mem_nil
  | cons ha _ ih =>
    rcases List.mem_cons.mp hb with rfl | hb
    · exact ⟨_, List.mem_cons_self, ha⟩
    · obtain ⟨a, hmem, hfa⟩ := ih hb
      exact ⟨a, List.mem_cons_of_mem _ hmem, hfa⟩

end

/-- The results of a traversal in `Option`. -/
theorem mapM_some {α β : Type} {f : α → Option β} {l : List α} {r : List β}
    (h : l.mapM f = some r) : List.Forall₂ (fun a b => f a = some b) l r := by
  induction l generalizing r with
  | nil =>
    cases h
    exact .nil
  | cons a l ih =>
    rw [List.mapM_cons] at h
    cases ha : f a with
    | none => rw [ha] at h; cases h
    | some b =>
      rw [ha] at h
      cases hl : l.mapM f with
      | none => rw [hl] at h; cases h
      | some bs =>
        rw [hl] at h
        cases h
        exact .cons ha (ih hl)

end GoFtrace.Lib
