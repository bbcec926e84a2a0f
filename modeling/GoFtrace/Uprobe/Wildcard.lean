import GoFtrace.Lib.Wildcard
import Mathlib.Data.UInt

/-!
# Wildcards

`MatchWildcard` of `internal/uprobe/utils.go`, on the bytes of a pattern and of a name.

* `matchWildcard_iff`: a name matches when it comes from the pattern by putting some string in
  the place of each `'*'`.
-/

namespace GoFtrace.Uprobe

open Lib

/-- The byte `'*'`. -/
def star : UInt8 := 42

/-- `MatchWildcard`. A rune of the pattern is `'*'` exactly when its byte is. -/
def matchWildcard : List UInt8 → List UInt8 → Bool
  | [], str => str.isEmpty
  | c :: pattern, [] => (c :: pattern).all (· == star)
  | c :: pattern, d :: str =>
    if c = star then (d :: str).tails.any (matchWildcard pattern)
    else c == d && matchWildcard pattern str

theorem matchWildcard_matcher : Matcher star matchWildcard where
  nil _ := rfl
  empty _ _ := rfl
  cons _ _ _ _ := rfl

/-- A match, and what the pattern stands for. -/
theorem matchWildcard_iff (pattern str : List UInt8) :
    matchWildcard pattern str = true ↔ Fills star pattern str := by
  apply matchWildcard_matcher.iff_fills

end GoFtrace.Uprobe
