import Mathlib.Data.List.Forall2
import Mathlib.Data.List.Infix

/-!
# Words with wildcards

A pattern is a word in which one symbol, the star, stands for any word. An encoding of the
symbols by strings that starts anew with every symbol does not change which words a pattern
stands for.

* `fills_cons_star`, `fills_cons_of_ne`: a pattern, one symbol at a time.
* `Matcher.iff_fills`: a function that compares a pattern with a word.
* `fills_encode`: patterns and words in an encoding.
-/

namespace GoFtrace.Lib

/-- The word comes from the pattern by putting some word in the place of each star. -/
def Fills {α : Type} (star : α) (pattern word : List α) : Prop :=
  ∃ pieces : List (List α),
    List.Forall₂ (fun c piece => c ≠ star → piece = [c]) pattern pieces ∧ word = pieces.flatten

section
variable {α : Type} {star c : α} {pattern word : List α}

theorem fills_nil : Fills star [] word ↔ word = [] := by
  constructor
  · rintro ⟨pieces, hpieces, rfl⟩
    cases hpieces
    rfl
  · rintro rfl
    exact ⟨[], .nil, rfl⟩

theorem fills_cons_star :
    Fills star (star :: pattern) word ↔
      ∃ piece rest, word = piece ++ rest ∧ Fills star pattern rest := by
  constructor
  · rintro ⟨pieces, hpieces, rfl⟩
    cases hpieces with
    | @cons _ piece _ pieces _ hpieces =>
      exact ⟨piece, pieces.flatten, rfl, pieces, hpieces, rfl⟩
  · rintro ⟨piece, rest, rfl, pieces, hpieces, rfl⟩
    exact ⟨piece :: pieces, .cons (fun hne => absurd rfl hne) hpieces, rfl⟩

theorem fills_cons_of_ne (hc : c ≠ star) :
    Fills star (c :: pattern) word ↔ ∃ rest, word = c :: rest ∧ Fills star pattern rest := by
  constructor
  · rintro ⟨pieces, hpieces, rfl⟩
    cases hpieces with
    | @cons _ piece _ pieces hpiece hpieces =>
      obtain rfl := hpiece hc
      exact ⟨pieces.flatten, rfl, pieces, hpieces, rfl⟩
  · rintro ⟨rest, rfl, pieces, hpieces, rfl⟩
    exact ⟨[c] :: pieces, .cons (fun _ => rfl) hpieces, rfl⟩

/-- The rests of a word that the pattern behind a star may stand for. -/
theorem fills_cons_star_tails :
    Fills star (star :: pattern) word ↔ ∃ rest ∈ word.tails, Fills star pattern rest := by
  rw [fills_cons_star]
  constructor
  · rintro ⟨piece, rest, rfl, hrest⟩
    exact ⟨rest, (List.mem_tails _ _).mpr (List.suffix_append piece rest), hrest⟩
  · rintro ⟨rest, htail, hrest⟩
    obtain ⟨piece, rfl⟩ := (List.mem_tails _ _).mp htail
    exact ⟨piece, rest, rfl, hrest⟩

theorem fills_cons_cons {d : α} (hc : c ≠ star) :
    Fills star (c :: pattern) (d :: word) ↔ c = d ∧ Fills star pattern word := by
  rw [fills_cons_of_ne hc]
  constructor
  · rintro ⟨rest, heq, hrest⟩
    obtain ⟨rfl, rfl⟩ := List.cons.inj heq
    exact ⟨rfl, hrest⟩
  · rintro ⟨rfl, hrest⟩
    exact ⟨word, rfl, hrest⟩

/-- A pattern of stars and nothing else stands for the empty word. -/
theorem fills_empty : Fills star pattern [] ↔ ∀ c ∈ pattern, c = star := by
  induction pattern with
  | nil => exact ⟨fun _ => nofun, fun _ => fills_nil.mpr rfl⟩
  | cons c pattern ih =>
    rw [List.forall_mem_cons]
    by_cases hc : c = star
    · subst hc
      rw [fills_cons_star, ← ih]
      constructor
      · rintro ⟨piece, rest, heq, hrest⟩
        obtain ⟨-, rfl⟩ := List.append_eq_nil_iff.mp heq.symm
        exact ⟨rfl, hrest⟩
      · rintro ⟨-, hrest⟩
        exact ⟨[], [], rfl, hrest⟩
    · rw [fills_cons_of_ne hc]
      constructor
      · rintro ⟨rest, heq, -⟩
        cases heq
      · intro h
        exact absurd h.1 hc

/-- A function that compares a pattern with a word from the first symbol on. Behind a star it
tries every rest of the word. -/
structure Matcher [DecidableEq α] (star : α) (f : List α → List α → Bool) : Prop where
  nil (word : List α) : f [] word = word.isEmpty
  empty (c : α) (pattern : List α) : f (c :: pattern) [] = (c :: pattern).all (· == star)
  cons (c : α) (pattern : List α) (d : α) (word : List α) : f (c :: pattern) (d :: word) =
    if c = star then (d :: word).tails.any (f pattern) else c == d && f pattern word

theorem Matcher.iff_fills [DecidableEq α] {f : List α → List α → Bool} (h : Matcher star f)
    (pattern word : List α) : f pattern word = true ↔ Fills star pattern word := by
  induction pattern generalizing word with
  | nil => rw [h.nil, List.isEmpty_iff, fills_nil]
  | cons c pattern ih =>
    cases word with
    | nil => rw [h.empty, List.all_eq_true, fills_empty]; simp
    | cons d word =>
      rw [h.cons]
      by_cases hc : c = star
      · subst hc
        rw [if_pos rfl, List.any_eq_true, fills_cons_star_tails]
        exact exists_congr fun rest => and_congr_right fun _ => ih rest
      · rw [if_neg hc, Bool.and_eq_true, beq_iff_eq, ih, fills_cons_cons hc]

/-- Symbols that are no stars stand for themselves. -/
theorem fills_append {lead : List α} (hlead : star ∉ lead) :
    Fills star (lead ++ pattern) word ↔ ∃ rest, word = lead ++ rest ∧ Fills star pattern rest := by
  induction lead generalizing word with
  | nil => simp
  | cons c lead ih =>
    obtain ⟨hc, hlead⟩ := List.ne_and_not_mem_of_not_mem_cons hlead
    rw [List.cons_append, fills_cons_of_ne (Ne.symm hc)]
    constructor
    · rintro ⟨tail, rfl, htail⟩
      obtain ⟨rest, rfl, hrest⟩ := (ih hlead).mp htail
      exact ⟨rest, rfl, hrest⟩
    · rintro ⟨rest, rfl, hrest⟩
      exact ⟨lead ++ rest, rfl, (ih hlead).mpr ⟨rest, rfl, hrest⟩⟩

end

/-! ## Encodings -/

/-- An encoding of symbols by strings: the first element of a string is told from the others,
and no string continues another one. The star is one element, which no other string has. -/
structure Encoding {α β : Type} (encode : α → List β) (star : α) (star' : β) : Prop where
  first : ∃ First : β → Prop, ∀ c, ∃ b bs, encode c = b :: bs ∧ First b ∧ ∀ x ∈ bs, ¬ First x
  prefix_free : ∀ {c d xs ys}, encode c ++ xs = encode d ++ ys → c = d
  star_eq : encode star = [star']
  star_notMem : ∀ {c}, c ≠ star → star' ∉ encode c

namespace Encoding

variable {α β : Type} {encode : α → List β} {star : α} {star' : β}
  (h : Encoding encode star star')
include h

theorem ne_nil (c : α) : encode c ≠ [] := by
  obtain ⟨First, hfirst⟩ := h.first
  obtain ⟨b, bs, hc, -⟩ := hfirst c
  rw [hc]
  exact List.cons_ne_nil b bs

theorem flatMap_eq_nil {word : List α} (hnil : word.flatMap encode = []) : word = [] := by
  cases word with
  | nil => rfl
  | cons c word =>
    rw [List.flatMap_cons] at hnil
    exact absurd (List.append_eq_nil_iff.mp hnil).1 (h.ne_nil c)

/-- A part of an encoded word that starts with the string of a symbol is an encoded word. -/
theorem suffix_of_start (c : α) {ys : List β} : ∀ {word : List α} {xs : List β},
    word.flatMap encode = xs ++ (encode c ++ ys) →
      ∃ before after, word = before ++ after ∧ after.flatMap encode = encode c ++ ys
  | [], xs, heq => by
    have hnil : xs ++ (encode c ++ ys) = [] := heq.symm
    simp only [List.append_eq_nil_iff] at hnil
    exact absurd hnil.2.1 (h.ne_nil c)
  | d :: word, [], heq => ⟨[], d :: word, rfl, heq⟩
  | d :: word, x :: xs, heq => by
    obtain ⟨First, hfirst⟩ := h.first
    obtain ⟨b, bs, hd, -, hbs⟩ := hfirst d
    obtain ⟨b', bs', hc, hb', -⟩ := hfirst c
    have hlong : bs.length ≤ xs.length := by
      by_contra hlt
      -- the string of `c` would start inside the one of `d`
      rw [List.flatMap_cons, hd, hc, List.cons_append, List.cons_append] at heq
      have htail := (List.cons.inj heq).2
      have hstart : (bs ++ word.flatMap encode)[xs.length]? = bs[xs.length]? :=
        List.getElem?_append_left (by omega)
      have hget : bs[xs.length]? = some b' := by
        rw [← hstart, htail, List.getElem?_append_right (Nat.le_refl _), Nat.sub_self]
        rfl
      exact hbs b' (List.mem_of_getElem? hget) hb'
    rw [List.flatMap_cons, hd, List.cons_append, List.cons_append] at heq
    have htail := (List.cons.inj heq).2
    obtain ⟨xs', hxs⟩ : ∃ xs', xs = bs ++ xs' := by
      refine ⟨xs.drop bs.length, ?_⟩
      have htake := congrArg (List.take bs.length) htail
      rw [List.take_left, List.take_append_of_le_length hlong] at htake
      conv_lhs => rw [← List.take_append_drop bs.length xs, ← htake]
    rw [hxs, List.append_assoc] at htail
    obtain ⟨before, after, rfl, hafter⟩ := suffix_of_start c (List.append_cancel_left htail)
    exact ⟨d :: before, after, rfl, hafter⟩

/-- What fills a pattern inside an encoded word starts at the string of a symbol, or may as
well do so. -/
theorem fills_suffix {pattern : List α} : ∀ {word : List α} {xs ys : List β},
    word.flatMap encode = xs ++ ys → Fills star' (pattern.flatMap encode) ys →
      ∃ before after, word = before ++ after ∧
        Fills star' (pattern.flatMap encode) (after.flatMap encode) := by
  induction pattern with
  | nil =>
    intro word xs ys _ hfill
    exact ⟨word, [], (List.append_nil _).symm, fills_nil.mpr rfl⟩
  | cons c pattern ih =>
    intro word xs ys heq hfill
    rw [List.flatMap_cons] at hfill ⊢
    by_cases hc : c = star
    · subst hc
      rw [h.star_eq, List.singleton_append] at hfill ⊢
      rw [fills_cons_star] at hfill
      obtain ⟨piece, rest, rfl, hrest⟩ := hfill
      rw [← List.append_assoc] at heq
      obtain ⟨before, after, rfl, hafter⟩ := ih heq hrest
      refine ⟨before, after, rfl, ?_⟩
      rw [fills_cons_star]
      exact ⟨[], _, rfl, hafter⟩
    · obtain ⟨rest, rfl, hrest⟩ := (fills_append (h.star_notMem hc)).mp hfill
      obtain ⟨before, after, rfl, hafter⟩ := h.suffix_of_start c heq
      exact ⟨before, after, rfl, hafter ▸ hfill⟩

/-- Encoding a pattern and a word keeps whether the pattern stands for the word. -/
theorem fills_encode {pattern word : List α} :
    Fills star' (pattern.flatMap encode) (word.flatMap encode) ↔ Fills star pattern word := by
  induction pattern generalizing word with
  | nil =>
    rw [List.flatMap_nil, fills_nil, fills_nil]
    exact ⟨h.flatMap_eq_nil, fun hnil => by rw [hnil]; rfl⟩
  | cons c pattern ih =>
    rw [List.flatMap_cons]
    by_cases hc : c = star
    · subst hc
      rw [h.star_eq, List.singleton_append, fills_cons_star, fills_cons_star]
      constructor
      · rintro ⟨piece, rest, heq, hrest⟩
        obtain ⟨before, after, rfl, hafter⟩ := h.fills_suffix heq hrest
        exact ⟨before, after, rfl, ih.mp hafter⟩
      · rintro ⟨piece, rest, rfl, hrest⟩
        exact ⟨piece.flatMap encode, rest.flatMap encode, List.flatMap_append, ih.mpr hrest⟩
    · rw [fills_append (h.star_notMem hc), fills_cons_of_ne hc]
      constructor
      · rintro ⟨rest, heq, hrest⟩
        cases word with
        | nil =>
          have hnil : encode c ++ rest = [] := heq.symm
          exact absurd (List.append_eq_nil_iff.mp hnil).1 (h.ne_nil c)
        | cons d word =>
          rw [List.flatMap_cons] at heq
          obtain rfl := h.prefix_free heq
          rw [← List.append_cancel_left heq] at hrest
          exact ⟨word, rfl, ih.mp hrest⟩
      · rintro ⟨rest, rfl, hrest⟩
        exact ⟨rest.flatMap encode, List.flatMap_cons, ih.mpr hrest⟩

end Encoding

end GoFtrace.Lib
