import Mathlib.Data.List.AList
import Mathlib.Algebra.GroupWithZero.Nat
import Mathlib.Algebra.Order.BigOperators.Group.List

/-!
# Finite maps with totals

`AList` as the map of an imperative program, with the sum of a measure of its values.

* `total_erase`, `total_insert`: how the sum changes with the map.
-/

namespace GoFtrace.Lib

variable {α β : Type}

/-- A finite map from `α` to `β`. -/
abbrev FMap (α β : Type) : Type := AList (fun _ : α => β)

namespace FMap

/-- The number of entries. -/
def size (s : FMap α β) : Nat := s.entries.length

/-- The sum of `f` over the values. -/
def total (f : β → Nat) (s : FMap α β) : Nat := (s.entries.map fun e => f e.2).sum

@[simp] theorem size_empty : size (∅ : FMap α β) = 0 := rfl

@[simp] theorem total_empty (f : β → Nat) : total f (∅ : FMap α β) = 0 := rfl

variable [DecidableEq α]

/-- The value of a key, or the default when it is missing. -/
def get (s : FMap α β) (d : β) (a : α) : β := (s.lookup a).getD d

@[simp] theorem get_empty (d : β) (a : α) : get (∅ : FMap α β) d a = d := rfl

/-! ## One entry and the rest -/

theorem entries_perm {s : FMap α β} {a : α} {b : β} (h : s.lookup a = some b) :
    s.entries.Perm (⟨a, b⟩ :: (s.erase a).entries) := by
  have hmem : a ∈ s.entries.keys := AList.mem_keys.mp (AList.lookup_isSome.mp (by simp [h]))
  obtain ⟨b', l₁, l₂, hnot, heq, herase⟩ := List.exists_of_kerase hmem
  have hb : s.lookup a = some b' := by
    refine AList.mem_lookup_iff.mpr ?_
    rw [heq]
    simp
  cases Option.some.inj (h.symm.trans hb)
  have hentries : (s.erase a).entries = l₁ ++ l₂ := herase
  rw [hentries, heq]
  exact List.perm_middle

theorem erase_eq_self {s : FMap α β} {a : α} (h : s.lookup a = none) : s.erase a = s := by
  refine AList.ext ?_
  exact List.kerase_of_notMem_keys (AList.mem_keys.not.mp (AList.lookup_eq_none.mp h))

/-- The total without a key is the total less the measure of its value. -/
theorem total_erase {s : FMap α β} {a : α} {b : β} (f : β → Nat) (h : s.lookup a = some b) :
    total f s = f b + total f (s.erase a) := by
  have hperm := (entries_perm h).map fun e => f e.2
  rw [total, hperm.sum_eq, List.map_cons, List.sum_cons, total]

theorem total_insert (f : β → Nat) (s : FMap α β) (a : α) (b : β) :
    total f (s.insert a b) = f b + total f (s.erase a) := rfl

theorem size_erase {s : FMap α β} {a : α} {b : β} (h : s.lookup a = some b) :
    size s = 1 + size (s.erase a) := by
  rw [size, (entries_perm h).length_eq, List.length_cons, size, Nat.add_comm]

theorem size_insert (s : FMap α β) (a : α) (b : β) :
    size (s.insert a b) = 1 + size (s.erase a) := by
  change (s.entries.kerase a).length + 1 = 1 + (s.entries.kerase a).length
  exact Nat.add_comm _ _

theorem size_insert_of_some {s : FMap α β} {a : α} {b b' : β} (h : s.lookup a = some b') :
    size (s.insert a b) = size s := by
  rw [size_insert, size_erase h]

theorem size_insert_of_none {s : FMap α β} {a : α} {b : β} (h : s.lookup a = none) :
    size (s.insert a b) = size s + 1 := by
  rw [size_insert, erase_eq_self h, Nat.add_comm]

theorem size_erase_le (s : FMap α β) (a : α) : size (s.erase a) ≤ size s := by
  cases h : s.lookup a with
  | none => rw [erase_eq_self h]
  | some b => rw [size_erase h]; omega

/-! ## Default values -/

theorem get_insert_self (s : FMap α β) (d : β) (a : α) (b : β) :
    get (s.insert a b) d a = b := by
  simp [get]

theorem get_insert_of_ne (s : FMap α β) (d : β) {a a' : α} (b : β) (h : a' ≠ a) :
    get (s.insert a b) d a' = get s d a' := by
  simp [get, AList.lookup_insert_ne h]

theorem get_erase_self (s : FMap α β) (d : β) (a : α) : get (s.erase a) d a = d := by
  simp [get]

theorem get_erase_of_ne (s : FMap α β) (d : β) {a a' : α} (h : a' ≠ a) :
    get (s.erase a) d a' = get s d a' := by
  simp [get, AList.lookup_erase_ne h]

/-- With a default of measure zero, erasing a key takes the measure of its value away. -/
theorem total_eq_get_add (f : β → Nat) (s : FMap α β) (a : α) {d : β} (hd : f d = 0) :
    total f s = f (get s d a) + total f (s.erase a) := by
  cases h : s.lookup a with
  | none => rw [get, h, erase_eq_self h, Option.getD_none, hd, Nat.zero_add]
  | some b => rw [get, h, Option.getD_some, total_erase f h]

/-- A pointwise bound of two measures bounds the totals. -/
theorem total_le_total {γ : Type} {f : β → Nat} {g : γ → Nat} {s : FMap α β} {t : FMap α γ}
    (d : β) (d' : γ) (hd : f d = 0) (hd' : g d' = 0)
    (h : ∀ a, f (get s d a) ≤ g (get t d' a)) :
    total f s ≤ total g t := by
  induction hn : size s generalizing s t with
  | zero =>
    have hnil : s.entries = [] := List.length_eq_zero_iff.mp hn
    simp [total, hnil]
  | succ n ih =>
    obtain ⟨e, l, hcons⟩ : ∃ e l, s.entries = e :: l := by
      cases hs : s.entries with
      | nil => rw [size, hs] at hn; cases hn
      | cons e l => exact ⟨e, l, rfl⟩
    have hlook : s.lookup e.1 = some e.2 := by
      refine AList.mem_lookup_iff.mpr ?_
      rw [hcons]
      exact List.mem_cons_self
    have hsize := size_erase hlook
    have hrest : total f (s.erase e.1) ≤ total g (t.erase e.1) := by
      refine ih (fun a => ?_) (by omega)
      by_cases ha : a = e.1
      · subst ha
        rw [get_erase_self, hd]
        exact Nat.zero_le _
      · rw [get_erase_of_ne _ _ ha, get_erase_of_ne _ _ ha]
        exact h a
    have hown : f e.2 ≤ g (get t d' e.1) := by
      have := h e.1
      rwa [get, hlook] at this
    rw [total_erase f hlook, total_eq_get_add g t e.1 hd']
    exact Nat.add_le_add hown hrest

end FMap

end GoFtrace.Lib
