import GoFtrace.Tracing.Parser
import GoFtrace.Uprobe.Wildcard

/-!
# Attached names

`Parse` takes the patterns of the user and the names of the symbol table as texts, and
`MatchWildcard` compares their bytes. On texts that are encoded in UTF-8 the two agree.

* `matchName_bytes`: a name matches a pattern when its bytes match the bytes of the pattern.
* `mem_attachFuncs`: the functions that `Parse` attaches to.
-/

namespace GoFtrace.Tracing

open Lib

theorem matchWildcard_chars : Matcher '*' matchWildcard where
  nil _ := rfl
  empty _ _ := rfl
  cons c pattern d word := by
    rw [matchWildcard, if_neg (by simp)]

/-! ## Bytes -/

/-- The bytes of a text. -/
def bytesOf (s : String) : List UInt8 := s.toList.flatMap String.utf8EncodeChar

theorem utf8_prefix_free {c d : Char} {xs ys : List UInt8}
    (h : String.utf8EncodeChar c ++ xs = String.utf8EncodeChar d ++ ys) : c = d := by
  have hbytes := congrArg List.toByteArray h
  rw [List.toByteArray_append, List.toByteArray_append] at hbytes
  have hdecode := congrArg (ByteArray.utf8DecodeChar? · 0) hbytes
  simp only [ByteArray.utf8DecodeChar?_utf8EncodeChar_append] at hdecode
  exact Option.some.inj hdecode

theorem utf8_star : String.utf8EncodeChar '*' = [Uprobe.star] := by decide

theorem utf8_first (c : Char) : ∃ b bs, String.utf8EncodeChar c = b :: bs ∧ b.IsUTF8FirstByte ∧
    ∀ x ∈ bs, ¬ x.IsUTF8FirstByte := by
  cases hc : String.utf8EncodeChar c with
  | nil => exact absurd hc String.utf8EncodeChar_ne_nil
  | cons b bs =>
    have hall : ∀ i (hi : i < (b :: bs).length), (b :: bs)[i].IsUTF8FirstByte ↔ i = 0 := by
      rw [← hc]
      exact fun i hi => UInt8.isUTF8FirstByte_getElem_utf8EncodeChar
    refine ⟨b, bs, rfl, (hall 0 (Nat.zero_lt_succ _)).mpr rfl, fun x hx hfirst => ?_⟩
    obtain ⟨i, hi, rfl⟩ := List.getElem_of_mem hx
    exact absurd ((hall (i + 1) (Nat.succ_lt_succ hi)).mp hfirst) (Nat.succ_ne_zero i)

theorem utf8_star_notMem {c : Char} (hc : c ≠ '*') :
    Uprobe.star ∉ String.utf8EncodeChar c := by
  obtain ⟨b, bs, hbytes, -, hrest⟩ := utf8_first c
  rw [hbytes]
  intro hmem
  rcases List.mem_cons.mp hmem with rfl | hmem
  · -- a string that starts with the byte of the star is the one of the star
    have heq : String.utf8EncodeChar c ++ [] = String.utf8EncodeChar '*' ++ bs := by
      rw [utf8_star, hbytes, List.append_nil, List.singleton_append]
    exact hc (utf8_prefix_free heq)
  · exact hrest _ hmem (by decide)

/-- UTF-8 starts anew with every character. -/
theorem utf8_encoding : Encoding String.utf8EncodeChar '*' Uprobe.star where
  first := ⟨_, utf8_first⟩
  prefix_free := utf8_prefix_free
  star_eq := utf8_star
  star_notMem := utf8_star_notMem

theorem matchName_iff (pattern name : String) :
    matchName pattern name = true ↔ Fills Uprobe.star (bytesOf pattern) (bytesOf name) := by
  rw [matchName, matchWildcard_chars.iff_fills]
  exact utf8_encoding.fills_encode.symm

/-- The names that match, and what `MatchWildcard` says of their bytes. -/
theorem matchName_bytes (pattern name : String) :
    matchName pattern name = Uprobe.matchWildcard (bytesOf pattern) (bytesOf name) := by
  rw [Bool.eq_iff_iff, matchName_iff, Uprobe.matchWildcard_matcher.iff_fills]

/-- The functions of the symbol table that `Parse` attaches to. -/
theorem mem_attachFuncs {b : Binary} {opts : ParseOptions} {name : String} :
    name ∈ b.attachFuncs opts ↔ (∃ row ∈ b.rows, row.isFunc = true ∧ row.name = name) ∧
      (∃ pattern ∈ opts.uprobeWildcards ++ opts.funcNames,
        Fills Uprobe.star (bytesOf pattern) (bytesOf name)) ∧
      (opts.excludeVendor = true → contains name "/vendor/" = false) := by
  simp only [Binary.attachFuncs, List.mem_filterMap, Option.ite_none_right_eq_some,
    Bool.and_eq_true, List.any_eq_true, matchName_iff, Option.some.injEq]
  constructor
  · rintro ⟨row, hrow, ⟨⟨hfunc, hmatch⟩, hvendor⟩, rfl⟩
    refine ⟨⟨row, hrow, hfunc, rfl⟩, hmatch, fun hopt => ?_⟩
    simpa [hopt] using hvendor
  · rintro ⟨⟨row, hrow, hfunc, rfl⟩, hmatch, hvendor⟩
    refine ⟨row, hrow, ⟨⟨hfunc, hmatch⟩, ?_⟩, rfl⟩
    cases hopt : opts.excludeVendor with
    | false => rfl
    | true => simp [hvendor hopt]

end GoFtrace.Tracing
