import GoFtrace.Lib.FMap
import Mathlib.Algebra.Order.BigOperators.Group.List
import Mathlib.Algebra.Order.Ring.Nat
import Mathlib.Data.Finset.Card

/-!
# Space-Saving summaries

A table of at most `cap` counters summarizes a stream of weighted keys. A key of the table
is counted; a new key takes a free place, or the place of a key of smallest weight, whose
weight it inherits as its error.

* `Summarizes.step`: the bounds survive one key.
* `Summarizes.frequent`: a key of more than the average weight is in the table.
-/

namespace GoFtrace.Lib.SpaceSaving

variable {κ β : Type} [DecidableEq κ]

/-! ## Streams -/

/-- The total weight of a stream. -/
def streamWeight (xs : List (κ × Nat)) : Nat := (xs.map Prod.snd).sum

/-- The weight of a key. -/
def freq (xs : List (κ × Nat)) (k : κ) : Nat :=
  ((xs.filter fun x => x.1 = k).map Prod.snd).sum

/-- How often a key occurs. -/
def occ (xs : List (κ × Nat)) (k : κ) : Nat := (xs.map Prod.fst).count k

/-- The keys of a stream. -/
def support (xs : List (κ × Nat)) : Finset κ := (xs.map Prod.fst).toFinset

section
variable (xs : List (κ × Nat)) (k u : κ) (w : Nat)

omit [DecidableEq κ] in
@[simp] theorem streamWeight_append_one :
    streamWeight (xs ++ [(k, w)]) = streamWeight xs + w := by
  simp [streamWeight]

@[simp] theorem freq_append_self : freq (xs ++ [(k, w)]) k = freq xs k + w := by
  simp [freq]

@[simp] theorem occ_append_self : occ (xs ++ [(k, w)]) k = occ xs k + 1 := by
  simp [occ]

variable {k u} in
theorem freq_append_of_ne (h : u ≠ k) : freq (xs ++ [(k, w)]) u = freq xs u := by
  simp [freq, h.symm]

variable {k u} in
theorem occ_append_of_ne (h : u ≠ k) : occ (xs ++ [(k, w)]) u = occ xs u := by
  simp [occ, h.symm]

@[simp] theorem support_append_one : support (xs ++ [(k, w)]) = insert k (support xs) := by
  ext a
  simp [support]

end

theorem freq_of_notMem_support {xs : List (κ × Nat)} {k : κ} (h : k ∉ support xs) :
    freq xs k = 0 := by
  have hnil : xs.filter (fun x => x.1 = k) = [] := by
    rw [List.filter_eq_nil_iff]
    rintro ⟨a, w⟩ hx hak
    refine h ?_
    rw [support, List.mem_toFinset, List.mem_map]
    exact ⟨(a, w), hx, by simpa using hak⟩
  rw [freq, hnil]
  rfl

theorem occ_of_notMem_support {xs : List (κ × Nat)} {k : κ} (h : k ∉ support xs) :
    occ xs k = 0 := by
  rw [support, List.mem_toFinset] at h
  exact List.count_eq_zero.mpr h

/-! ## Tables -/

/-- What a table keeps for a key: an observed count, a weight that is never too small, and
by how much it may be too large. -/
structure Counter where
  count : Nat
  weight : Nat
  error : Nat
  deriving DecidableEq, Repr

section
variable (c : β → Counter)

/-- One key of weight `w` enters a table of at most `cap` counters. -/
inductive Step (cap : Nat) (k : κ) (w : Nat) (s : FMap κ β) : FMap κ β → Prop
  | hit {b b' : β} (hk : s.lookup k = some b)
      (hb : c b' = { c b with count := (c b).count + 1, weight := (c b).weight + w }) :
      Step cap k w s (s.insert k b')
  | fresh {b : β} (hk : s.lookup k = none) (hroom : FMap.size s < cap) (hb : c b = ⟨1, w, 0⟩) :
      Step cap k w s (s.insert k b)
  | replace {v : κ} {b b' : β} (hk : s.lookup k = none) (hfull : cap ≤ FMap.size s)
      (hv : s.lookup v = some b)
      (hmin : ∀ u d, s.lookup u = some d → (c b).weight ≤ (c d).weight)
      (hb : c b' = ⟨1, (c b).weight + w, (c b).weight⟩) :
      Step cap k w s ((s.erase v).insert k b')

/-- The guarantees of a table after a stream. -/
structure Summarizes (cap : Nat) (xs : List (κ × Nat)) (s : FMap κ β) : Prop where
  size_le : FMap.size s ≤ cap
  total_eq : FMap.total (fun b => (c b).weight) s = streamWeight xs
  seen : ∀ k b, s.lookup k = some b → k ∈ support xs
  lower : ∀ k b, s.lookup k = some b → freq xs k ≤ (c b).weight
  upper : ∀ k b, s.lookup k = some b → (c b).weight ≤ freq xs k + (c b).error
  count_le : ∀ k b, s.lookup k = some b → (c b).count ≤ occ xs k
  absent : ∀ k, s.lookup k = none → ∀ u b, s.lookup u = some b → freq xs k ≤ (c b).weight
  room : FMap.size s < cap → ∀ k ∈ support xs, s.lookup k ≠ none
  exact : (support xs).card ≤ cap →
    (∀ k ∈ support xs, s.lookup k ≠ none) ∧
      ∀ k b, s.lookup k = some b → c b = ⟨occ xs k, freq xs k, 0⟩

namespace Summarizes
variable {c} {cap : Nat} {xs : List (κ × Nat)} {s s' : FMap κ β} {k : κ} {w : Nat}

theorem nil (cap : Nat) : Summarizes c cap [] (∅ : FMap κ β) where
  size_le := Nat.zero_le _
  total_eq := rfl
  seen _ _ h := by cases h
  lower _ _ h := by cases h
  upper _ _ h := by cases h
  count_le _ _ h := by cases h
  absent _ _ _ _ h := by cases h
  room _ _ h := by cases h
  exact _ := by
    refine ⟨fun _ h => ?_, fun _ _ h => ?_⟩
    · cases h
    · cases h

/-- The table holds no more keys than the stream. -/
theorem size_le_support (h : Summarizes c cap xs s) : FMap.size s ≤ (support xs).card := by
  have hsub : s.keys.toFinset ⊆ support xs := by
    intro k hk
    obtain ⟨b, hb⟩ := Option.isSome_iff_exists.mp
      (AList.lookup_isSome.mpr (AList.mem_keys.mpr (List.mem_toFinset.mp hk)))
    exact h.seen k b hb
  have hcard := Finset.card_le_card hsub
  rw [List.toFinset_card_of_nodup s.keys_nodup] at hcard
  have hlen : s.keys.length = FMap.size s := List.length_map ..
  omega

/-- A key of the table is counted. -/
theorem hit {b b' : β} (h : Summarizes c cap xs s) (hk : s.lookup k = some b)
    (hb : c b' = { c b with count := (c b).count + 1, weight := (c b).weight + w }) :
    Summarizes c cap (xs ++ [(k, w)]) (s.insert k b') := by
  have hmem : k ∈ support xs := h.seen k b hk
  have hsupport : support (xs ++ [(k, w)]) = support xs := by
    rw [support_append_one, Finset.insert_eq_self.mpr hmem]
  have hcases : ∀ {u d}, (s.insert k b').lookup u = some d →
      (u = k ∧ d = b') ∨ (u ≠ k ∧ s.lookup u = some d) := by
    intro u d hu
    by_cases huk : u = k
    · subst huk
      rw [AList.lookup_insert] at hu
      exact .inl ⟨rfl, (Option.some.inj hu).symm⟩
    · rw [AList.lookup_insert_ne huk] at hu
      exact .inr ⟨huk, hu⟩
  have hnone : ∀ {u}, (s.insert k b').lookup u = none → u ≠ k ∧ s.lookup u = none := by
    intro u hu
    have huk : u ≠ k := fun e => by rw [e, AList.lookup_insert] at hu; cases hu
    rw [AList.lookup_insert_ne huk] at hu
    exact ⟨huk, hu⟩
  have hweight : (c b').weight = (c b).weight + w := by rw [hb]
  have hsize : FMap.size (s.insert k b') = FMap.size s := FMap.size_insert_of_some hk
  constructor
  · rw [hsize]
    exact h.size_le
  · rw [FMap.total_insert, hweight, streamWeight_append_one, ← h.total_eq, FMap.total_erase _ hk]
    omega
  · intro u d hu
    rw [hsupport]
    rcases hcases hu with ⟨rfl, -⟩ | ⟨-, hu⟩
    · exact hmem
    · exact h.seen u d hu
  · intro u d hu
    rcases hcases hu with ⟨rfl, rfl⟩ | ⟨huk, hu⟩
    · rw [freq_append_self, hweight]
      exact Nat.add_le_add_right (h.lower u b hk) w
    · rw [freq_append_of_ne _ _ huk]
      exact h.lower u d hu
  · intro u d hu
    rcases hcases hu with ⟨rfl, rfl⟩ | ⟨huk, hu⟩
    · have herror : (c d).error = (c b).error := by rw [hb]
      have hupper := h.upper u b hk
      rw [freq_append_self, hweight, herror]
      omega
    · rw [freq_append_of_ne _ _ huk]
      exact h.upper u d hu
  · intro u d hu
    rcases hcases hu with ⟨rfl, rfl⟩ | ⟨huk, hu⟩
    · have hcount : (c d).count = (c b).count + 1 := by rw [hb]
      rw [occ_append_self, hcount]
      exact Nat.add_le_add_right (h.count_le u b hk) 1
    · rw [occ_append_of_ne _ _ huk]
      exact h.count_le u d hu
  · intro v hv u d hu
    obtain ⟨hvk, habsent⟩ := hnone hv
    rw [freq_append_of_ne _ _ hvk]
    rcases hcases hu with ⟨rfl, rfl⟩ | ⟨-, hu⟩
    · have hle := h.absent v habsent u b hk
      omega
    · exact h.absent v habsent u d hu
  · intro hroom v hv
    rw [hsize] at hroom
    rw [hsupport] at hv
    exact fun hno => h.room hroom v hv (hnone hno).2
  · intro hcard
    rw [hsupport] at hcard ⊢
    obtain ⟨hall, hexact⟩ := h.exact hcard
    refine ⟨fun v hv hno => hall v hv (hnone hno).2, fun u d hu => ?_⟩
    rcases hcases hu with ⟨rfl, rfl⟩ | ⟨huk, hu⟩
    · rw [hb, hexact u b hk, occ_append_self, freq_append_self]
    · rw [occ_append_of_ne _ _ huk, freq_append_of_ne _ _ huk]
      exact hexact u d hu

/-- A key that is not in the table enters it, in a free place or in the place of `v`, whose
weight `m` is the smallest. -/
theorem enter {s₀ : FMap κ β} {b : β} {m : Nat} (h : Summarizes c cap xs s)
    (hk : s.lookup k = none) (hb : c b = ⟨1, m + w, m⟩)
    (hsub : ∀ u d, s₀.lookup u = some d → s.lookup u = some d)
    (hsize : FMap.size s₀ + 1 ≤ cap)
    (htotal : FMap.total (fun b => (c b).weight) s₀ + m = streamWeight xs)
    (hbelow : freq xs k ≤ m) (hmin : ∀ u d, s.lookup u = some d → m ≤ (c d).weight)
    (habsent : ∀ u, s₀.lookup u = none → freq xs u ≤ m)
    (hroom : FMap.size s₀ + 1 < cap → ∀ u ∈ support xs, s₀.lookup u ≠ none)
    (hexact : (insert k (support xs)).card ≤ cap →
      k ∉ support xs ∧ m = 0 ∧ ∀ u ∈ support xs, s₀.lookup u ≠ none) :
    Summarizes c cap (xs ++ [(k, w)]) (s₀.insert k b) := by
  have hno : s₀.lookup k = none := by
    cases hs : s₀.lookup k with
    | none => rfl
    | some d => rw [hsub k d hs] at hk; cases hk
  have hcases : ∀ {u d}, (s₀.insert k b).lookup u = some d →
      (u = k ∧ d = b) ∨ (u ≠ k ∧ s.lookup u = some d) := by
    intro u d hu
    by_cases huk : u = k
    · subst huk
      rw [AList.lookup_insert] at hu
      exact .inl ⟨rfl, (Option.some.inj hu).symm⟩
    · rw [AList.lookup_insert_ne huk] at hu
      exact .inr ⟨huk, hsub u d hu⟩
  have hnone : ∀ {u}, (s₀.insert k b).lookup u = none → u ≠ k ∧ s₀.lookup u = none := by
    intro u hu
    have huk : u ≠ k := fun e => by rw [e, AList.lookup_insert] at hu; cases hu
    rw [AList.lookup_insert_ne huk] at hu
    exact ⟨huk, hu⟩
  have hweight : (c b).weight = m + w := by rw [hb]
  have hsize' : FMap.size (s₀.insert k b) = FMap.size s₀ + 1 := FMap.size_insert_of_none hno
  have hkeys : (∀ u ∈ support xs, s₀.lookup u ≠ none) → ∀ u ∈ support (xs ++ [(k, w)]),
      (s₀.insert k b).lookup u ≠ none := by
    intro hall u hu hnone'
    obtain ⟨huk, hu'⟩ := hnone hnone'
    rw [support_append_one] at hu
    exact hall u (Finset.mem_of_mem_insert_of_ne hu huk) hu'
  constructor
  · rw [hsize']
    exact hsize
  · rw [FMap.total_insert, FMap.erase_eq_self hno, hweight, streamWeight_append_one, ← htotal]
    omega
  · intro u d hu
    rw [support_append_one]
    rcases hcases hu with ⟨rfl, -⟩ | ⟨-, hu⟩
    · exact Finset.mem_insert_self _ _
    · exact Finset.mem_insert_of_mem (h.seen u d hu)
  · intro u d hu
    rcases hcases hu with ⟨rfl, rfl⟩ | ⟨huk, hu⟩
    · rw [freq_append_self, hweight]
      exact Nat.add_le_add_right hbelow w
    · rw [freq_append_of_ne _ _ huk]
      exact h.lower u d hu
  · intro u d hu
    rcases hcases hu with ⟨rfl, rfl⟩ | ⟨huk, hu⟩
    · rw [freq_append_self, hb]
      dsimp only
      omega
    · rw [freq_append_of_ne _ _ huk]
      exact h.upper u d hu
  · intro u d hu
    rcases hcases hu with ⟨rfl, rfl⟩ | ⟨huk, hu⟩
    · rw [occ_append_self, hb]
      exact Nat.le_add_left _ _
    · rw [occ_append_of_ne _ _ huk]
      exact h.count_le u d hu
  · intro v hv u d hu
    obtain ⟨hvk, hv'⟩ := hnone hv
    have hle := habsent v hv'
    rw [freq_append_of_ne _ _ hvk]
    rcases hcases hu with ⟨rfl, rfl⟩ | ⟨-, hu⟩
    · omega
    · exact Nat.le_trans hle (hmin u d hu)
  · intro hlt
    exact hkeys (hroom (by omega))
  · intro hcard
    rw [support_append_one] at hcard
    obtain ⟨hnew, hm, hall⟩ := hexact hcard
    refine ⟨hkeys hall, fun u d hu => ?_⟩
    rcases hcases hu with ⟨rfl, rfl⟩ | ⟨huk, hu⟩
    · rw [hb, hm, occ_append_self, freq_append_self, occ_of_notMem_support hnew,
        freq_of_notMem_support hnew]
    · rw [occ_append_of_ne _ _ huk, freq_append_of_ne _ _ huk]
      exact (h.exact (Nat.le_trans (Finset.card_le_card (Finset.subset_insert _ _)) hcard)).2 u d hu

/-- The guarantees survive one key. -/
theorem step (h : Summarizes c cap xs s) (hstep : Step c cap k w s s') :
    Summarizes c cap (xs ++ [(k, w)]) s' := by
  cases hstep with
  | hit hk hb => exact h.hit hk hb
  | fresh hk hroom hb =>
    have hnew : k ∉ support xs := fun hmem => h.room hroom k hmem hk
    refine h.enter (m := 0) hk (by rw [hb, Nat.zero_add]) (fun _ _ hu => hu) hroom h.total_eq
      (Nat.le_of_eq (freq_of_notMem_support hnew)) (fun _ _ _ => Nat.zero_le _) (fun u hu => ?_)
      (fun hlt => h.room hroom) fun _ => ⟨hnew, rfl, h.room hroom⟩
    exact Nat.le_of_eq (freq_of_notMem_support fun hmem => h.room hroom u hmem hu)
  | @replace v b b' hk hfull hv hmin hb =>
    have herase := FMap.size_erase hv
    have hle := h.size_le
    refine h.enter hk hb (fun u d hu => ?_) (by omega) ?_ (h.absent k hk v b hv) hmin
      (fun u hu => ?_) (fun hlt => by omega) fun hcard => ?_
    · by_cases huv : u = v
      · rw [huv, AList.lookup_erase] at hu
        cases hu
      · rwa [AList.lookup_erase_ne huv] at hu
    · rw [← h.total_eq, FMap.total_erase _ hv]
      exact Nat.add_comm _ _
    · by_cases huv : u = v
      · rw [huv]
        exact h.lower v b hv
      · rw [AList.lookup_erase_ne huv] at hu
        exact h.absent u hu v b hv
    · -- a full table of all the keys of a short stream has the new one
      exfalso
      have hall := (h.exact (Nat.le_trans (Finset.card_le_card (Finset.subset_insert _ _))
        hcard)).1
      rw [Finset.card_insert_of_notMem fun hmem => hall k hmem hk] at hcard
      have hcover := h.size_le_support
      omega

/-- A key of more than the average weight is in the table. -/
theorem frequent (h : Summarizes c cap xs s) (hfreq : streamWeight xs < cap * freq xs k) :
    s.lookup k ≠ none := by
  intro hno
  by_cases hroom : FMap.size s < cap
  · have hzero : freq xs k = 0 := freq_of_notMem_support fun hmem => h.room hroom k hmem hno
    rw [hzero, Nat.mul_zero] at hfreq
    exact Nat.not_lt_zero _ hfreq
  · have hsize : FMap.size s = cap := Nat.le_antisymm h.size_le (Nat.le_of_not_lt hroom)
    have hsum := List.card_nsmul_le_sum (s.entries.map fun e => (c e.2).weight) (freq xs k) (by
      intro n hn
      obtain ⟨e, he, rfl⟩ := List.mem_map.mp hn
      exact h.absent k hno e.1 e.2 (AList.mem_lookup_iff.mpr he))
    have htotal := h.total_eq
    rw [FMap.total] at htotal
    rw [List.length_map, htotal, Nat.nsmul_eq_mul] at hsum
    rw [FMap.size] at hsize
    rw [hsize] at hsum
    omega

end Summarizes

end

end GoFtrace.Lib.SpaceSaving
