import GoFtrace.EventManager.Aggregate
import GoFtrace.Lib.SpaceSaving

/-!
# Return values

The table of return values of a function is a Space-Saving summary of the values recorded
in it.

* `recordRetval_step`: one call of `recordRetval` is one step of the algorithm.
* `recordRetvals_summarizes`: the guarantees hold after every stream.
-/

namespace GoFtrace.EventManager

open Lib Lib.SpaceSaving

/-- The counter that `retvalCount` is. -/
def RetvalCount.counter (r : RetvalCount) : Counter := ⟨r.count, r.weightedCount, r.weightedError⟩

/-- One call of `recordRetval`: the order in which the map is ranged over, the value and the
weight given. -/
structure Retval where
  order : MapOrder
  value : String
  weight : Nat

/-- The value with the weight it is counted with. -/
def Retval.item (r : Retval) : String × Nat := (r.value, if r.weight = 0 then 1 else r.weight)

/-- The calls of `recordRetval` one after the other, on a fresh table. -/
def recordRetvals (stream : List Retval) : FMap String RetvalCount :=
  stream.foldl (fun retvals r => recordRetval r.order r.value r.weight retvals) ∅

theorem recordRetval_step (order : MapOrder) (retval : String) (weight : Nat)
    (retvals : FMap String RetvalCount) :
    Step RetvalCount.counter maxAggregateRetvals retval (if weight = 0 then 1 else weight) retvals
      (recordRetval order retval weight retvals) := by
  have hcases := recordRetval_cases order retval weight retvals
  generalize recordRetval order retval weight retvals = retvals' at hcases ⊢
  cases hcases with
  | update hlook => exact .hit hlook rfl
  | fresh hlook hroom => exact .fresh hlook hroom rfl
  | replace hlook hfull hvalue hmin => exact .replace hlook hfull hvalue hmin rfl

theorem summarizes_recordRetvals (stream : List Retval) :
    Summarizes RetvalCount.counter maxAggregateRetvals (stream.map Retval.item)
      (recordRetvals stream) := by
  induction stream using List.reverseRecOn with
  | nil => exact .nil maxAggregateRetvals
  | append_singleton stream r ih =>
    rw [recordRetvals, List.foldl_append, List.map_append]
    exact ih.step (recordRetval_step r.order r.value r.weight (recordRetvals stream))

/-- The table after any stream of return values. With `W` the weight of the stream, `f v` the
weight and `n v` the number of occurrences of a value: the table is bounded, its weighted
counts add up to `W`, each is off by at most its error, a value outside the table weighs no
more than any inside, a value of more than `W / 64` is inside, and with at most 64 values
every counter is exact. -/
theorem recordRetvals_summarizes (stream : List Retval) :
    let xs := stream.map Retval.item
    let table := recordRetvals stream
    FMap.size table ≤ maxAggregateRetvals ∧
    FMap.total RetvalCount.weightedCount table = streamWeight xs ∧
    (∀ v c, table.lookup v = some c →
      freq xs v ≤ c.weightedCount ∧ c.weightedCount ≤ freq xs v + c.weightedError ∧
        c.count ≤ occ xs v) ∧
    (∀ v, table.lookup v = none → ∀ u c, table.lookup u = some c → freq xs v ≤ c.weightedCount) ∧
    (∀ v, streamWeight xs < maxAggregateRetvals * freq xs v → table.lookup v ≠ none) ∧
    ((support xs).card ≤ maxAggregateRetvals →
      (∀ v ∈ support xs, table.lookup v ≠ none) ∧
        ∀ v c, table.lookup v = some c →
          c = { count := occ xs v, weightedCount := freq xs v, weightedError := 0 }) := by
  intro xs table
  have h := summarizes_recordRetvals stream
  refine ⟨h.size_le, h.total_eq, fun v c hv => ⟨h.lower v c hv, h.upper v c hv, h.count_le v c hv⟩,
    h.absent, fun v => h.frequent, fun hcard => ?_⟩
  obtain ⟨hall, hexact⟩ := h.exact hcard
  refine ⟨hall, fun v c hv => ?_⟩
  obtain ⟨hcount, hweight, herror⟩ := Counter.mk.inj (hexact v c hv)
  cases c
  subst hcount hweight herror
  rfl

end GoFtrace.EventManager
