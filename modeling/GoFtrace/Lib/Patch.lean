import Mathlib.Data.List.Basic

/-!
# Patches

Bytes written over parts of an image, one part after the other. Where the parts are apart, their
order does not matter: each one keeps its bytes, and the rest of the image is as it was.

* `apply_inside`: what is read in a part.
* `apply_outside`: what is read outside all parts.
-/

namespace GoFtrace.Lib

section
variable {α : Type}

/-- Some bytes and where they go. -/
structure Patch (α : Type) where
  offset : Nat
  bytes : List α

namespace Patch

/-- The position is one that the patch is written to. -/
def Has (p : Patch α) (i : Nat) : Prop := p.offset ≤ i ∧ i < p.offset + p.bytes.length

/-- No position is in both. -/
def Apart (p q : Patch α) : Prop :=
  p.offset + p.bytes.length ≤ q.offset ∨ q.offset + q.bytes.length ≤ p.offset

/-- The patch lies in an image of `n` bytes. -/
def Fits (n : Nat) (p : Patch α) : Prop := p.offset + p.bytes.length ≤ n

theorem Apart.not_has {p q : Patch α} (h : p.Apart q) {i : Nat} (hp : p.Has i) : ¬ q.Has i := by
  intro hq
  obtain ⟨hlow, hhigh⟩ := hp
  obtain ⟨hlow', hhigh'⟩ := hq
  rcases h with h | h <;> omega

/-- The image with the bytes of a patch in it. -/
def write (img : List α) (p : Patch α) : List α :=
  img.take p.offset ++ p.bytes ++ img.drop (p.offset + p.bytes.length)

/-- The patches in their order. -/
def apply (img : List α) (ps : List (Patch α)) : List α := ps.foldl write img

variable {img : List α} {p : Patch α}

theorem write_length (h : p.Fits img.length) : (write img p).length = img.length := by
  rw [Fits] at h
  rw [write, List.length_append, List.length_append, List.length_take, List.length_drop]
  omega

theorem write_inside (h : p.Fits img.length) {i : Nat} (hi : p.Has i) :
    (write img p)[i]? = p.bytes[i - p.offset]? := by
  obtain ⟨hlow, hhigh⟩ := hi
  rw [Fits] at h
  have htake : (img.take p.offset).length = p.offset := by
    rw [List.length_take]
    omega
  rw [write, List.append_assoc, List.getElem?_append_right (by omega), htake,
    List.getElem?_append_left (by omega)]

theorem write_outside (h : p.Fits img.length) {i : Nat} (hi : ¬ p.Has i) :
    (write img p)[i]? = img[i]? := by
  rw [Fits] at h
  have htake : (img.take p.offset).length = p.offset := by
    rw [List.length_take]
    omega
  rw [write, List.append_assoc]
  by_cases hlow : i < p.offset
  · rw [List.getElem?_append_left (by omega), List.getElem?_take_of_lt hlow]
  · have hhigh : p.offset + p.bytes.length ≤ i := by
      by_contra hlt
      exact hi ⟨by omega, by omega⟩
    rw [List.getElem?_append_right (by omega), List.getElem?_append_right (by omega), htake,
      List.getElem?_drop]
    congr 1
    omega

/-- A patch in two pieces. -/
theorem write_append (offset : Nat) {xs ys : List α}
    (h : offset + (xs.length + ys.length) ≤ img.length) :
    write img ⟨offset, xs ++ ys⟩ = write (write img ⟨offset, xs⟩) ⟨offset + xs.length, ys⟩ := by
  have hxs : Fits img.length ⟨offset, xs⟩ := by
    rw [Fits]
    dsimp only
    omega
  have hboth : Fits img.length ⟨offset, xs ++ ys⟩ := by
    rw [Fits, List.length_append]
    exact h
  have hys : Fits (write img ⟨offset, xs⟩).length ⟨offset + xs.length, ys⟩ := by
    rw [write_length hxs, Fits]
    dsimp only
    omega
  apply List.ext_getElem?
  intro i
  by_cases hi : Has ⟨offset + xs.length, ys⟩ i
  · rw [write_inside hys hi]
    obtain ⟨hlow, hhigh⟩ := hi
    dsimp only at hlow hhigh
    rw [write_inside hboth ⟨by dsimp only; omega, by rw [List.length_append]; dsimp only; omega⟩]
    dsimp only
    rw [List.getElem?_append_right (by omega)]
    congr 1
    omega
  · rw [write_outside hys hi]
    by_cases hi' : Has ⟨offset, xs⟩ i
    · rw [write_inside hxs hi']
      obtain ⟨hlow, hhigh⟩ := hi'
      dsimp only at hlow hhigh
      rw [write_inside hboth ⟨hlow, by rw [List.length_append]; dsimp only; omega⟩]
      dsimp only
      rw [List.getElem?_append_left (by omega)]
    · rw [write_outside hxs hi', write_outside hboth]
      intro hin
      obtain ⟨hlow, hhigh⟩ := hin
      rw [List.length_append] at hhigh
      dsimp only at hlow hhigh
      by_cases hlt : i < offset + xs.length
      · exact hi' ⟨hlow, hlt⟩
      · refine hi ⟨?_, ?_⟩ <;> dsimp only <;> omega

theorem apply_append (img : List α) (ps qs : List (Patch α)) :
    apply img (ps ++ qs) = apply (apply img ps) qs := List.foldl_append

theorem apply_length {ps : List (Patch α)} (h : ∀ p ∈ ps, p.Fits img.length) :
    (apply img ps).length = img.length := by
  induction ps generalizing img with
  | nil => rfl
  | cons p ps ih =>
    obtain ⟨hp, hps⟩ := List.forall_mem_cons.mp h
    have hwrite := write_length hp
    exact (ih (fun q hq => hwrite.symm ▸ hps q hq)).trans hwrite

theorem apply_outside {ps : List (Patch α)} (h : ∀ p ∈ ps, p.Fits img.length) {i : Nat}
    (hi : ∀ p ∈ ps, ¬ p.Has i) : (apply img ps)[i]? = img[i]? := by
  induction ps generalizing img with
  | nil => rfl
  | cons p ps ih =>
    obtain ⟨hp, hps⟩ := List.forall_mem_cons.mp h
    obtain ⟨hpi, hpsi⟩ := List.forall_mem_cons.mp hi
    have hrest := ih (fun q hq => (write_length hp).symm ▸ hps q hq) hpsi
    exact hrest.trans (write_outside hp hpi)

/-- Patches that are apart keep their bytes. -/
theorem apply_inside {ps : List (Patch α)} (h : ∀ p ∈ ps, p.Fits img.length)
    (hapart : ps.Pairwise Apart) {p : Patch α} (hp : p ∈ ps) {i : Nat} (hi : p.Has i) :
    (apply img ps)[i]? = p.bytes[i - p.offset]? := by
  induction ps generalizing img with
  | nil => cases hp
  | cons q ps ih =>
    obtain ⟨hq, hps⟩ := List.forall_mem_cons.mp h
    obtain ⟨hfirst, hrest⟩ := List.pairwise_cons.mp hapart
    have hfits : ∀ r ∈ ps, r.Fits (write img q).length :=
      fun r hr => (write_length hq).symm ▸ hps r hr
    rcases List.mem_cons.mp hp with rfl | hp
    · -- the later ones leave it alone
      have hkeep := apply_outside hfits fun r hr => (hfirst r hr).not_has hi
      exact hkeep.trans (write_inside hq hi)
    · exact ih hfits hrest hp

end Patch

end

end GoFtrace.Lib
