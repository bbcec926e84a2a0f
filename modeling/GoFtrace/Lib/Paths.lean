import Mathlib.Data.List.Basic

/-!
# Paths of names

A path is a list of names and a name is a list of letters. Paths are apart when neither lies
below the other. A path is written with a separator between its names.

* `Apart.of_ne`: two paths that part at a common place are apart.
* `intercalate_injective`: a written path can be read back.
* `eq_of_intercalate_concat`: a written path that ends in a name has this name at its end.
-/

namespace GoFtrace.Lib

variable {α : Type}

/-! ## Paths that part -/

/-- Neither path lies at or below the other. -/
def Apart (a b : List α) : Prop := ¬ a <+: b ∧ ¬ b <+: a

theorem Apart.symm {a b : List α} (h : Apart a b) : Apart b a := ⟨h.2, h.1⟩

theorem Apart.ne {a b : List α} (h : Apart a b) : a ≠ b := by
  intro heq
  exact h.1 (heq ▸ List.prefix_refl a)

theorem Apart.of_ne {p a b : List α} {x y : α} (ha : p ++ [x] <+: a) (hb : p ++ [y] <+: b)
    (hne : x ≠ y) : Apart a b := by
  have hsplit : ∀ {c : List α}, p ++ [x] <+: c → ¬ p ++ [y] <+: c := by
    intro c hx hy
    have heq : p ++ [x] = p ++ [y] :=
      (List.prefix_of_prefix_length_le hx hy (by simp)).eq_of_length (by simp)
    exact hne (List.singleton_inj.mp (List.append_cancel_left heq))
  exact ⟨fun hab => hsplit (ha.trans hab) hb, fun hba => hsplit ha (hb.trans hba)⟩

/-! ## Written paths -/

/-- The last separator splits a word in one way. -/
theorem append_separator_inj {s : α} {a b l m : List α} (hl : s ∉ l) (hm : s ∉ m)
    (h : a ++ s :: l = b ++ s :: m) : a = b ∧ l = m := by
  rcases List.append_eq_append_iff.mp h with ⟨c, hb, hc⟩ | ⟨c, ha, hc⟩
  · cases c with
    | nil => exact ⟨by rw [hb, List.append_nil], (List.cons.inj hc).2⟩
    | cons x c =>
      have hmem : s ∈ l := by
        rw [(List.cons.inj hc).2]
        exact List.mem_append_right c List.mem_cons_self
      exact absurd hmem hl
  · cases c with
    | nil => exact ⟨by rw [ha, List.append_nil], (List.cons.inj hc).2.symm⟩
    | cons x c =>
      have hmem : s ∈ m := by
        rw [(List.cons.inj hc).2]
        exact List.mem_append_right c List.mem_cons_self
      exact absurd hmem hm

theorem intercalate_concat {s : α} {names : List (List α)} (hne : names ≠ []) (l : List α) :
    [s].intercalate (names ++ [l]) = [s].intercalate names ++ s :: l := by
  induction names with
  | nil => exact absurd rfl hne
  | cons x names ih =>
    cases names with
    | nil => simp
    | cons y names =>
      rw [List.cons_append, List.intercalate_cons_of_ne_nil (by simp), ih (by simp),
        List.intercalate_cons_cons, List.append_assoc _ _ (s :: l)]

theorem intercalate_injective [DecidableEq α] {s : α} {xs ys : List (List α)}
    (hx : ∀ x ∈ xs, s ∉ x) (hy : ∀ y ∈ ys, s ∉ y) (hxs : xs ≠ []) (hys : ys ≠ [])
    (h : [s].intercalate xs = [s].intercalate ys) : xs = ys := by
  rw [← List.splitOn_intercalate s hx hxs, h, List.splitOn_intercalate s hy hys]

/-- What stands before the last separator is the rest of the path. -/
theorem eq_of_intercalate_concat {s : α} {names : List (List α)} {p l : List α}
    (hnames : ∀ x ∈ names, s ∉ x) (hl : s ∉ l) (h : [s].intercalate names = p ++ s :: l) :
    ∃ q, q ≠ [] ∧ names = q ++ [l] ∧ [s].intercalate q = p := by
  rcases List.eq_nil_or_concat names with rfl | ⟨q, m, rfl⟩
  · simp at h
  · rw [List.concat_eq_append] at hnames h ⊢
    have hm : s ∉ m := hnames m (List.mem_append_right q (List.mem_singleton_self m))
    cases q with
    | nil =>
      rw [List.nil_append, List.intercalate_singleton] at h
      exact absurd (h ▸ List.mem_append_right p List.mem_cons_self) hm
    | cons x q =>
      rw [intercalate_concat (by simp)] at h
      obtain ⟨hp, rfl⟩ := append_separator_inj hm hl h
      exact ⟨x :: q, by simp, rfl, hp⟩

end GoFtrace.Lib
