import GoFtrace.Uprobe.Home

/-!
# What the snapshot serves

A read is answered from the first chunk that holds its first byte, also where that chunk is too
short for the read and a later one is not.

* `snapshotOf_find`: the chunk that a read looks at.
* `read_serves_iff`: the reads that are served whenever some chunk contains them.
-/

namespace GoFtrace.Uprobe

open Lib (Memory)

section
variable {m : Memory}

/-! ## Copies of memory -/

/-- A put whose leaf is a true copy of one memory. -/
structure Copy (m : Memory) where
  addr : UInt64
  leaf : LeafData
  addr_ne : addr ≠ 0
  available : leaf.unavailable = false
  not_nil : leaf.isNil = false
  isSlice : IsSlice m addr leaf.data
  fits : addr.toNat + leaf.data.length ≤ 2 ^ 64

namespace Copy

/-- The address behind the last byte. -/
def stop (p : Copy m) : Nat := p.addr.toNat + p.leaf.data.length

/-- The chunk is stored and the range lies inside. -/
def Contains (p : Copy m) (addr : UInt64) (n : Nat) : Prop :=
  p.leaf.data ≠ [] ∧ p.addr ≤ addr ∧ addr.toNat + n ≤ p.stop

/-- The chunk has a byte at the address, and does not end at the end of memory. -/
def Covers (p : Copy m) (addr : UInt64) : Prop :=
  p.addr ≤ addr ∧ addr.toNat < p.stop ∧ p.stop ≠ 2 ^ 64

instance (p : Copy m) (addr : UInt64) : Decidable (p.Covers addr) :=
  inferInstanceAs (Decidable (_ ∧ _ ∧ _))

def chunk (p : Copy m) : SnapChunk := { addr := p.addr, data := p.leaf.data }

theorem stored_iff (p : Copy m) : p.leaf.stored p.addr = true ↔ p.leaf.data ≠ [] := by
  simp [LeafData.stored, p.addr_ne, p.available, p.not_nil]

theorem Covers.ne_nil {p : Copy m} {addr : UInt64} (h : p.Covers addr) : p.leaf.data ≠ [] := by
  intro hnil
  obtain ⟨hle, hlt, -⟩ := h
  have hle' := UInt64.le_iff_toNat_le.mp hle
  rw [stop, hnil, List.length_nil] at hlt
  omega

/-- The test of `read`, whose sum wraps at the end of memory. -/
theorem holds_iff (p : Copy m) (addr : UInt64) : p.chunk.holds addr = true ↔ p.Covers addr := by
  have hfits := p.fits
  have haddr := p.addr.toNat_lt
  have hsum : (p.addr + UInt64.ofNat p.leaf.data.length).toNat =
      if p.stop = 2 ^ 64 then 0 else p.stop := by
    rw [UInt64.toNat_add, UInt64.toNat_ofNat', Nat.add_mod_mod]
    split
    · rename_i hstop
      rw [stop] at hstop
      rw [hstop, Nat.mod_self]
    · rename_i hstop
      rw [stop] at hstop
      exact Nat.mod_eq_of_lt (by omega)
  rw [SnapChunk.holds, Bool.and_eq_true, decide_eq_true_eq, decide_eq_true_eq, chunk,
    UInt64.lt_iff_toNat_lt, hsum, Covers]
  refine and_congr_right fun _ => ?_
  split
  · rename_i hstop
    exact ⟨fun h => absurd h (Nat.not_lt_zero _), fun h => absurd hstop h.2⟩
  · rename_i hstop
    exact ⟨fun h => ⟨h, hstop⟩, fun h => h.1⟩

end Copy

/-! ## The snapshot -/

/-- The puts, in their order. -/
def snapshotOf (puts : List (Copy m)) : MemSnapshot :=
  puts.foldl (fun s p => s.put p.addr p.leaf) {}

theorem putAll_chunks (puts : List (Copy m)) (s : MemSnapshot) :
    (puts.foldl (fun s p => s.put p.addr p.leaf) s).chunks =
      s.chunks ++ (puts.filter fun p => p.leaf.stored p.addr).map Copy.chunk := by
  induction puts generalizing s with
  | nil => simp
  | cons p puts ih =>
    rw [List.foldl_cons, ih, MemSnapshot.put]
    by_cases hp : p.leaf.stored p.addr = true
    · rw [if_pos hp, List.filter_cons, if_pos hp, List.map_cons, List.append_assoc]
      rfl
    · rw [if_neg hp, List.filter_cons, if_neg hp]

/-- A read looks at the first put that covers its first byte. -/
theorem snapshotOf_find (puts : List (Copy m)) (addr : UInt64) :
    (snapshotOf puts).chunks.find? (·.holds addr) =
      (puts.find? fun p => decide (p.Covers addr)).map Copy.chunk := by
  have hchunks : (snapshotOf puts).chunks =
      (puts.filter fun p => p.leaf.stored p.addr).map Copy.chunk := putAll_chunks puts {}
  rw [hchunks, List.find?_map, List.find?_filter]
  congr 2
  funext p
  rw [Function.comp_apply, decide_eq_decide, p.stored_iff, p.holds_iff]
  exact ⟨fun h => h.2, fun h => ⟨h.ne_nil, h⟩⟩

/-- The first put that covers the start serves the range if it contains it. -/
theorem read_of_first {puts : List (Copy m)} {addr : UInt64} {first : Copy m}
    (hfirst : puts.find? (fun p => decide (p.Covers addr)) = some first) (n : Nat) :
    (first.Contains addr n → (snapshotOf puts).read addr n = some (m.slice addr n)) ∧
      (¬ first.Contains addr n → (snapshotOf puts).read addr n = none) := by
  have hcovers : first.Covers addr := by simpa using List.find?_some hfirst
  have hne := hcovers.ne_nil
  obtain ⟨hle, hlt, -⟩ := hcovers
  have hsub := UInt64.toNat_sub_of_le _ _ hle
  have hle' := UInt64.le_iff_toNat_le.mp hle
  have hlen : n ≤ (first.leaf.data.drop (addr - first.addr).toNat).length ↔
      first.Contains addr n := by
    rw [List.length_drop, hsub, Copy.Contains, Copy.stop]
    rw [Copy.stop] at hlt
    constructor
    · intro h
      exact ⟨hne, hle, by omega⟩
    · intro h
      have := h.2.2
      omega
  rw [MemSnapshot.read, snapshotOf_find, hfirst, Option.map_some]
  dsimp only [Copy.chunk]
  constructor
  · intro h
    have hslice := (first.isSlice.drop (addr - first.addr).toNat).take n
    rw [UInt64.ofNat_toNat, UInt64.add_comm, UInt64.sub_add_cancel, IsSlice, List.length_take,
      Nat.min_eq_left (hlen.mpr h)] at hslice
    rw [if_pos (hlen.mpr h), hslice]
  · intro h
    rw [if_neg (mt hlen.mp h)]

/-- After any puts of true copies, a read is served whenever a stored chunk contains its range
exactly where no chunk contains it, or the first put that covers its start does. -/
theorem read_serves_iff (puts : List (Copy m)) (addr : UInt64) (n : Nat) :
    ((∃ p ∈ puts, p.Contains addr n) →
        (snapshotOf puts).read addr n = some (m.slice addr n)) ↔
      (∀ p ∈ puts, ¬ p.Contains addr n) ∨
        ∃ first, puts.find? (fun p => decide (p.Covers addr)) = some first ∧
          first.Contains addr n := by
  constructor
  · intro h
    by_cases hsome : ∃ p ∈ puts, p.Contains addr n
    · right
      have hread := h hsome
      cases hfirst : puts.find? (fun p => decide (p.Covers addr)) with
      | none =>
        rw [MemSnapshot.read, snapshotOf_find, hfirst] at hread
        cases hread
      | some first =>
        refine ⟨first, rfl, ?_⟩
        by_contra hno
        rw [(read_of_first hfirst n).2 hno] at hread
        cases hread
    · exact .inl fun p hp hcontains => hsome ⟨p, hp, hcontains⟩
  · rintro (hnone | ⟨first, hfirst, hcontains⟩) ⟨p, hp, hp'⟩
    · exact absurd hp' (hnone p hp)
    · exact (read_of_first hfirst n).1 hcontains

end

/-- A copy of memory that is zero everywhere. -/
def zeroCopy (addr : UInt64) (n : Nat) (haddr : addr ≠ 0) (hfits : addr.toNat + n ≤ 2 ^ 64) :
    Copy fun _ => 0 where
  addr := addr
  leaf := { data := Memory.slice (fun _ => 0) addr n }
  addr_ne := haddr
  available := rfl
  not_nil := rfl
  isSlice := .slice _ addr n
  fits := by rwa [Memory.slice_length]

/-- A chunk that ends inside the one put after it. -/
def overlapping : List (Copy fun _ => 0) :=
  [zeroCopy 4096 4 (by decide) (by decide), zeroCopy 4098 4 (by decide) (by decide)]

/-- The second chunk is the range that is read, but the first one holds its first byte. -/
theorem overlapping_short :
    (∃ p ∈ overlapping, p.Contains 4098 4) ∧ (snapshotOf overlapping).read 4098 4 = none := by
  refine ⟨⟨zeroCopy 4098 4 (by decide) (by decide), by simp [overlapping], ?_⟩, by decide⟩
  exact ⟨List.cons_ne_nil _ _, UInt64.le_refl _, Nat.le_refl _⟩

end GoFtrace.Uprobe
