import Mathlib.Algebra.Order.Group.Nat
import Mathlib.Data.Nat.Digits.Lemmas
import Mathlib.Tactic.Ring
import Mathlib.Data.UInt

/-!
# Byte memories and little-endian words

A memory is a total function from 64-bit addresses to bytes. Addresses wrap, as the
pointer arithmetic of the machine does. A slice is the list of bytes at consecutive
addresses, a word is the little-endian value of eight of them.

* `Memory.slice_drop`, `Memory.slice_take`: parts of a slice are slices.
* `leNat_leBytes`: reading back the bytes of a word gives the word.
-/

namespace GoFtrace.Lib

/-! ## Little-endian numbers -/

/-- The value of a little-endian byte string. -/
def leNat : List UInt8 → Nat
  | [] => 0
  | b :: bs => b.toNat + 256 * leNat bs

theorem leNat_replicate_zero (n : Nat) : leNat (List.replicate n 0) = 0 := by
  induction n with
  | zero => rfl
  | succ n ih => simp [List.replicate_succ, leNat, ih]

theorem leNat_append_zeros (bs : List UInt8) (n : Nat) :
    leNat (bs ++ List.replicate n 0) = leNat bs := by
  induction bs with
  | nil => exact leNat_replicate_zero n
  | cons b bs ih => rw [List.cons_append, leNat, leNat, ih]

theorem leNat_lt (bs : List UInt8) : leNat bs < 256 ^ bs.length := by
  induction bs with
  | nil => simp [leNat]
  | cons b bs ih =>
    have hb := b.toNat_lt
    simp only [leNat, List.length_cons, pow_succ]
    omega

/-- The lowest `n` bytes of a number, least significant first. -/
def leBytes : Nat → Nat → List UInt8
  | 0, _ => []
  | n + 1, v => UInt8.ofNat v :: leBytes n (v / 256)

@[simp] theorem leBytes_length (n v : Nat) : (leBytes n v).length = n := by
  induction n generalizing v with
  | zero => rfl
  | succ n ih => simp [leBytes, ih]

theorem leNat_leBytes (n v : Nat) : leNat (leBytes n v) = v % 256 ^ n := by
  induction n generalizing v with
  | zero => simp [leBytes, leNat, Nat.mod_one]
  | succ n ih =>
    have hb : (UInt8.ofNat v).toNat = v % 256 := UInt8.toNat_ofNat'
    rw [leBytes, leNat, ih, hb, Nat.pow_succ, Nat.mul_comm (256 ^ n), Nat.mod_mul]

/-- The 64-bit word held by the first eight bytes of a string; missing bytes count as
zero. -/
def word (bs : List UInt8) : UInt64 := UInt64.ofNat (leNat (bs.take 8))

/-- The eight bytes of a 64-bit word. -/
def wordBytes (w : UInt64) : List UInt8 := leBytes 8 w.toNat

@[simp] theorem wordBytes_length (w : UInt64) : (wordBytes w).length = 8 :=
  leBytes_length 8 _

@[simp] theorem word_wordBytes_append (w : UInt64) (bs : List UInt8) :
    word (wordBytes w ++ bs) = w := by
  have ht : (wordBytes w ++ bs).take 8 = wordBytes w :=
    List.take_left' (wordBytes_length w)
  have hw : w.toNat % 256 ^ 8 = w.toNat := Nat.mod_eq_of_lt w.toNat_lt
  rw [word, ht, wordBytes, leNat_leBytes, hw, UInt64.ofNat_toNat]

@[simp] theorem word_wordBytes (w : UInt64) : word (wordBytes w) = w := by
  simpa using word_wordBytes_append w []

theorem word_take {bs : List UInt8} {n : Nat} (hn : 8 ≤ n) : word (bs.take n) = word bs := by
  simp only [word, List.take_take, Nat.min_eq_left hn]

theorem word_replicate_zero (n : Nat) : word (List.replicate n 0) = 0 := by
  simp [word, List.take_replicate, leNat_replicate_zero]

/-- A word whose upper bytes are missing or zero. -/
theorem word_append_zeros (bs : List UInt8) (n : Nat) :
    word (bs ++ List.replicate n 0) = word bs := by
  rw [word, word, List.take_append, List.take_replicate, leNat_append_zeros]

theorem leNat_inj {xs ys : List UInt8} (hlen : xs.length = ys.length)
    (h : leNat xs = leNat ys) : xs = ys := by
  induction xs generalizing ys with
  | nil => exact (List.eq_nil_of_length_eq_zero hlen.symm).symm
  | cons x xs ih =>
    cases ys with
    | nil => cases hlen
    | cons y ys =>
      have hx := x.toNat_lt
      have hy := y.toNat_lt
      simp only [leNat] at h
      have hhead : x = y := UInt8.toNat_inj.mp (by omega)
      rw [hhead, ih (Nat.succ.inj hlen) (by omega)]

/-- Eight bytes are determined by their word. -/
theorem word_inj {xs ys : List UInt8} (hx : xs.length = 8) (hy : ys.length = 8)
    (h : word xs = word ys) : xs = ys := by
  have hltx := leNat_lt xs
  have hlty := leNat_lt ys
  rw [hx] at hltx
  rw [hy] at hlty
  rw [word, word, List.take_of_length_le (Nat.le_of_eq hx),
    List.take_of_length_le (Nat.le_of_eq hy)] at h
  have hnat := congrArg UInt64.toNat h
  rw [UInt64.toNat_ofNat', UInt64.toNat_ofNat', Nat.mod_eq_of_lt (by omega),
    Nat.mod_eq_of_lt (by omega)] at hnat
  exact leNat_inj (hx.trans hy.symm) hnat

/-- A word is zero when its bytes are. -/
theorem word_eq_zero {xs : List UInt8} (h : ∀ b ∈ xs, b = 0) : word xs = 0 := by
  rw [List.eq_replicate_of_mem h, word_replicate_zero]

theorem ofInt_natCast (n : Nat) : UInt64.ofInt n = UInt64.ofNat n := by
  have hmod : ((n : Int) % 2 ^ 64).toNat = n % 2 ^ 64 := by omega
  rw [UInt64.ofInt, hmod]
  exact UInt64.toNat_inj.mp (by simp)

/-! ## Memories -/

/-- The contents of a 64-bit address space. -/
abbrev Memory := UInt64 → UInt8

namespace Memory

/-- The `n` bytes at `a`, `a + 1`, ... -/
def slice (m : Memory) (a : UInt64) : Nat → List UInt8
  | 0 => []
  | n + 1 => m a :: slice m (a + 1) n

@[simp] theorem slice_length (m : Memory) (a : UInt64) (n : Nat) :
    (m.slice a n).length = n := by
  induction n generalizing a with
  | zero => rfl
  | succ n ih => simp [slice, ih]

theorem slice_drop (m : Memory) (a : UInt64) (k n : Nat) :
    (m.slice a (k + n)).drop k = m.slice (a + UInt64.ofNat k) n := by
  induction k generalizing a with
  | zero => simp
  | succ k ih =>
    have hstep : k + 1 + n = (k + n) + 1 := by omega
    have haddr : a + 1 + UInt64.ofNat k = a + UInt64.ofNat (k + 1) := by
      rw [UInt64.ofNat_add, UInt64.add_assoc, UInt64.add_comm 1]
      rfl
    rw [hstep, slice, List.drop_succ_cons, ih, haddr]

theorem slice_take (m : Memory) (a : UInt64) (k n : Nat) :
    (m.slice a (k + n)).take k = m.slice a k := by
  induction k generalizing a with
  | zero => simp [slice]
  | succ k ih =>
    have hstep : k + 1 + n = (k + n) + 1 := by omega
    rw [hstep, slice, List.take_succ_cons, ih, slice]

theorem slice_getElem (m : Memory) (a : UInt64) {n i : Nat} (h : i < (m.slice a n).length) :
    (m.slice a n)[i] = m (a + UInt64.ofNat i) := by
  have hi : i < n := by rwa [slice_length] at h
  induction n generalizing a i with
  | zero => cases hi
  | succ n ih =>
    cases i with
    | zero => simp [slice]
    | succ i =>
      have haddr : a + 1 + UInt64.ofNat i = a + UInt64.ofNat (i + 1) := by
        rw [UInt64.ofNat_add, UInt64.add_assoc, UInt64.add_comm 1]
        rfl
      have hi' : i < n := by omega
      rw [← haddr]
      exact ih (a + 1) (by rwa [slice_length]) hi'

/-- The 64-bit word at an address. -/
def wordAt (m : Memory) (a : UInt64) : UInt64 := word (m.slice a 8)

theorem word_slice {m : Memory} {a : UInt64} {n : Nat} (hn : 8 ≤ n) :
    word (m.slice a n) = m.wordAt a := by
  obtain ⟨k, rfl⟩ := Nat.exists_eq_add_of_le hn
  rw [wordAt, ← slice_take m a 8 k, word_take (Nat.le_refl 8)]

/-- A word read inside a slice is the word of the memory at that address. -/
theorem word_drop_slice {m : Memory} {a : UInt64} {k n : Nat} (h : k + 8 ≤ n) :
    word ((m.slice a n).drop k) = m.wordAt (a + UInt64.ofNat k) := by
  obtain ⟨r, rfl⟩ := Nat.exists_eq_add_of_le (show k ≤ n by omega)
  rw [slice_drop, word_slice (by omega)]

end Memory

end GoFtrace.Lib
