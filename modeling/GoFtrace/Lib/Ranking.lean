import GoFtrace.Lib.SpaceSaving
import Mathlib.Data.List.Sort

/-!
# The heaviest entries

The entries of a table, sorted by their weight, and by their key where the weights are equal.

* `rank_congr`: the order in which the entries are given does not matter.
* `Summarizes.top`: a key of enough weight is one of the first entries of a summary.
-/

namespace GoFtrace.Lib

section
variable {κ β : Type} [LinearOrder κ] (w : β → Nat)

/-- Whether an entry is sorted before another one. -/
def before (x y : κ × β) : Bool :=
  if w x.2 ≠ w y.2 then decide (w y.2 < w x.2) else decide (x.1 < y.1)

/-- The entries, the heaviest first. -/
def rank (l : List (κ × β)) : List (κ × β) := l.mergeSort fun x y => !before w y x

variable {w} {l l' : List (κ × β)} {x y z : κ × β} {n : Nat}

theorem before_iff :
    before w x y = true ↔ w y.2 < w x.2 ∨ w x.2 = w y.2 ∧ x.1 < y.1 := by
  unfold before
  by_cases h : w x.2 = w y.2
  · simp [h]
  · simp [h]

theorem not_before_iff :
    (!before w y x) = true ↔ w y.2 < w x.2 ∨ w x.2 = w y.2 ∧ x.1 ≤ y.1 := by
  rw [Bool.not_eq_true', ← Bool.not_eq_true, before_iff, not_or, not_and, Nat.not_lt]
  constructor
  · rintro ⟨hle, heq⟩
    rcases Nat.lt_or_eq_of_le hle with hlt | hsame
    · exact .inl hlt
    · exact .inr ⟨hsame.symm, not_lt.mp (heq hsame)⟩
  · rintro (hlt | ⟨hsame, hle⟩)
    · exact ⟨Nat.le_of_lt hlt, fun h => absurd h (Nat.ne_of_lt hlt)⟩
    · exact ⟨Nat.le_of_eq hsame.symm, fun _ => not_lt.mpr hle⟩

/-- An entry before another one weighs no less. -/
theorem weight_le_of_before (h : before w x y = true) : w y.2 ≤ w x.2 := by
  rcases before_iff.mp h with hlt | ⟨heq, -⟩
  · exact Nat.le_of_lt hlt
  · exact Nat.le_of_eq heq.symm

theorem before_asymm (h : before w x y = true) : before w y x ≠ true := by
  intro h'
  rcases before_iff.mp h with hlt | ⟨heq, hlt⟩
  · exact absurd (weight_le_of_before h') (Nat.not_le_of_lt hlt)
  · rcases before_iff.mp h' with hlt' | ⟨-, hlt'⟩
    · exact absurd heq (Nat.ne_of_lt hlt')
    · exact lt_asymm hlt hlt'

theorem rank_perm (l : List (κ × β)) : (rank w l).Perm l := List.mergeSort_perm _ _

/-- No two entries of different keys stand in any other order. -/
theorem rank_sorted (h : (l.map Prod.fst).Nodup) :
    (rank w l).Pairwise fun x y => before w x y = true := by
  have hle : (rank w l).Pairwise fun x y => (!before w y x) = true := by
    apply List.pairwise_mergeSort
    · intro a b c hab hbc
      rw [not_before_iff] at hab hbc ⊢
      rcases hab with hab | ⟨hab, hab'⟩
      · rcases hbc with hbc | ⟨hbc, -⟩
        · exact .inl (Nat.lt_trans hbc hab)
        · exact .inl (hbc ▸ hab)
      · rcases hbc with hbc | ⟨hbc, hbc'⟩
        · exact .inl (hab ▸ hbc)
        · exact .inr ⟨hab.trans hbc, hab'.trans hbc'⟩
    · intro a b
      rw [Bool.or_eq_true, not_before_iff, not_before_iff]
      rcases Nat.lt_trichotomy (w a.2) (w b.2) with hlt | heq | hlt
      · exact .inr (.inl hlt)
      · exact (le_total a.1 b.1).imp (fun h => .inr ⟨heq, h⟩) fun h => .inr ⟨heq.symm, h⟩
      · exact .inl (.inl hlt)
  have hne : (rank w l).Pairwise fun x y => x.1 ≠ y.1 := by
    have hnodup := ((rank_perm (w := w) l).map Prod.fst).nodup_iff.mpr h
    rwa [List.Nodup, List.pairwise_map] at hnodup
  refine (List.pairwise_and_iff.mpr ⟨hle, hne⟩).imp fun {x y} hxy => ?_
  rw [before_iff]
  exact (not_before_iff.mp hxy.1).imp_right fun h => ⟨h.1, lt_of_le_of_ne h.2 hxy.2⟩

theorem rank_congr (h : (l.map Prod.fst).Nodup) (hperm : l.Perm l') : rank w l = rank w l' := by
  have h' := (hperm.map Prod.fst).nodup_iff.mp h
  refine List.Perm.eq_of_pairwise ?_ (rank_sorted h) (rank_sorted h') ?_
  · exact fun a b _ _ hab hba => absurd hba (before_asymm hab)
  · exact (rank_perm l).trans (hperm.trans (rank_perm l').symm)

/-- An entry that is not among the first `n` has `n` others before it. -/
theorem rank_take (h : (l.map Prod.fst).Nodup) (hx : x ∈ l) (hnot : x ∉ (rank w l).take n) :
    ((rank w l).take n).length = n ∧
      (∀ y ∈ (rank w l).take n, before w y x = true) ∧ x ∈ (rank w l).drop n := by
  have hmem : x ∈ (rank w l).take n ++ (rank w l).drop n := by
    rw [List.take_append_drop]
    exact (rank_perm l).mem_iff.mpr hx
  have hdrop := (List.mem_append.mp hmem).resolve_left hnot
  have hsorted := rank_sorted (w := w) h
  rw [← List.take_append_drop n (rank w l)] at hsorted
  refine ⟨?_, fun y hy => (List.pairwise_append.mp hsorted).2.2 y hy x hdrop, hdrop⟩
  have hlt := List.length_pos_of_mem hdrop
  rw [List.length_drop] at hlt
  rw [List.length_take]
  omega

end

namespace SpaceSaving

variable {κ β : Type} [LinearOrder κ] {c : β → Counter} {cap n : Nat} {xs : List (κ × Nat)}
  {s : FMap κ β} {k : κ}

/-- The entries of a table as pairs. -/
def pairs (s : FMap κ β) : List (κ × β) := s.entries.map fun e => (e.1, e.2)

omit [LinearOrder κ] in
theorem pairs_nodup (s : FMap κ β) : ((pairs s).map Prod.fst).Nodup := by
  rw [pairs, List.map_map]
  exact s.nodupKeys

theorem mem_pairs {x : κ × β} : x ∈ pairs s ↔ s.lookup x.1 = some x.2 := by
  rw [pairs, List.mem_map]
  constructor
  · rintro ⟨e, he, rfl⟩
    exact AList.mem_lookup_iff.mpr he
  · intro h
    exact ⟨⟨x.1, x.2⟩, AList.mem_lookup_iff.mp h, rfl⟩

/-- A key of more than `1 / (n + 1)` of the weight is one of the `n` heaviest of a summary of more
than `n` places. -/
theorem Summarizes.top (h : Summarizes c cap xs s) (hn : n < cap)
    (hfreq : streamWeight xs < (n + 1) * freq xs k) :
    ∃ b, (k, b) ∈ (rank (fun b => (c b).weight) (pairs s)).take n := by
  have hcap : streamWeight xs < cap * freq xs k :=
    Nat.lt_of_lt_of_le hfreq (Nat.mul_le_mul_right _ hn)
  obtain ⟨b, hb⟩ := Option.ne_none_iff_exists'.mp (h.frequent hcap)
  refine ⟨b, ?_⟩
  by_contra hnot
  obtain ⟨hlen, hbefore, hdrop⟩ := rank_take (pairs_nodup s) (mem_pairs.mpr hb) hnot
  -- the first entries and the one of the key weigh too much
  have hfirst := List.card_nsmul_le_sum
    (((rank (fun b => (c b).weight) (pairs s)).take n).map fun y => (c y.2).weight) (freq xs k) (by
      intro m hm
      obtain ⟨y, hy, rfl⟩ := List.mem_map.mp hm
      exact Nat.le_trans (h.lower k b hb) (weight_le_of_before (hbefore y hy)))
  have hrest : (c b).weight ≤
      (((rank (fun b => (c b).weight) (pairs s)).drop n).map fun y => (c y.2).weight).sum :=
    List.single_le_sum (fun _ _ => Nat.zero_le _) _ (List.mem_map.mpr ⟨_, hdrop, rfl⟩)
  have htotal : ((rank (fun b => (c b).weight) (pairs s)).map fun y => (c y.2).weight).sum =
      streamWeight xs := by
    rw [((rank_perm (pairs s)).map _).sum_eq, pairs, List.map_map, ← h.total_eq]
    rfl
  rw [← List.take_append_drop n (rank _ _), List.map_append, List.sum_append] at htotal
  rw [List.length_map, hlen, Nat.nsmul_eq_mul] at hfirst
  have hlower := h.lower k b hb
  rw [Nat.add_mul, Nat.one_mul] at hfreq
  omega

end SpaceSaving

end GoFtrace.Lib
