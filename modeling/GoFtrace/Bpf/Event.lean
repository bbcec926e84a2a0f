import Mathlib.Data.UInt
import Mathlib.Data.Vector.Basic

/-!
# Events and kernel maps

The structs of `internal/bpf/ftrace.c` that the probe programs and the event manager
share: the event with its leaves, the per-goroutine trace state, the sampling
configuration and the counters.
-/

namespace GoFtrace.Bpf

/-! ## Constants -/

/-- `MAX_DATA_SIZE`: the bytes of one leaf slot. -/
def maxDataSize : Nat := 64

/-- Leaves per event: the length of `event.args`. -/
def maxArgs : Nat := 8

/-- `ENTPOINT`, `RETPOINT` and `GOROUTINE_EXIT`. -/
def entPoint : UInt8 := 0
def retPoint : UInt8 := 1
def goroutineExitPoint : UInt8 := 2

/-- `TRACE_START`, `TRACE_END` and `TRACE_ABORT`. -/
def traceStart : UInt8 := 1
def traceEnd : UInt8 := 2
def traceAbort : UInt8 := 4

/-- `MAX_SAMPLE_EVENTS`. -/
def maxSampleEvents : UInt32 := 4096

/-- `max_entries` of `event_queue`. -/
def eventQueueEntries : Nat := 10000

/-! ## Leaves -/

/-- `struct arg_data`: one leaf in its 64-byte slot. -/
structure ArgData where
  data : List UInt8
  isNil : Bool := false
  readError : Bool := false
  data_length : data.length = maxDataSize
  deriving DecidableEq, Repr

namespace ArgData

/-- The slot after `memset(data, 0, sizeof(*data))`. -/
def zero : ArgData := { data := List.replicate maxDataSize 0, data_length := by simp }

instance : Inhabited ArgData := ⟨zero⟩

/-- A slot whose first bytes were written; the rest is zero. -/
def ofBytes (bs : List UInt8) : ArgData :=
  { data := (bs ++ List.replicate (maxDataSize - bs.length) 0).take maxDataSize
    data_length := by simp; omega }

/-- `data->is_nil = 1`. -/
def ofNil : ArgData := { zero with isNil := true }

/-- `data->read_error = 1`. -/
def ofError : ArgData := { zero with readError := true }

theorem ofBytes_data {bs : List UInt8} (h : bs.length ≤ maxDataSize) :
    (ofBytes bs).data = bs ++ List.replicate (maxDataSize - bs.length) 0 := by
  have hlen : (bs ++ List.replicate (maxDataSize - bs.length) (0 : UInt8)).length
      ≤ maxDataSize := by
    simp; omega
  exact List.take_of_length_le hlen

@[simp] theorem ofBytes_isNil (bs : List UInt8) : (ofBytes bs).isNil = false := rfl

@[simp] theorem ofBytes_readError (bs : List UInt8) : (ofBytes bs).readError = false := rfl

end ArgData

/-! ## Events -/

/-- `struct event`, `GoftraceEvent` in Go. -/
structure Event where
  goid : UInt64
  ip : UInt64 := 0
  bp : UInt64 := 0
  callerIp : UInt64 := 0
  callerBp : UInt64 := 0
  timeNs : UInt64 := 0
  pid : UInt32
  sampleDenominator : UInt32 := 0
  location : UInt8 := 0
  argCount : UInt8 := 0
  traceFlags : UInt8 := 0
  args : Vector ArgData maxArgs := Vector.replicate maxArgs ArgData.zero
  deriving DecidableEq, Repr

/-- `struct goid_key`. -/
structure GoidKey where
  pid : UInt32
  goid : UInt64
  deriving DecidableEq, Repr

def Event.key (e : Event) : GoidKey := { pid := e.pid, goid := e.goid }

/-- The event with the leaves that `fetch_args` stored; the other slots are zero. -/
def Event.withLeaves (e : Event) (leaves : List ArgData) : Event :=
  { e with
    argCount := UInt8.ofNat leaves.length
    args := Vector.ofFn fun i => leaves.getD i ArgData.zero }

@[simp] theorem Event.withLeaves_key (e : Event) (ls : List ArgData) :
    (e.withLeaves ls).key = e.key := rfl

/-! ## Maps -/

/-- `struct trace_state`. -/
structure TraceState where
  rootIp : UInt64
  lastIp : UInt64
  lastBp : UInt64
  rootDepth : UInt32
  eventCount : UInt32
  sampleDenominator : UInt32
  deriving DecidableEq, Repr

/-- `struct runtime_stats`, summed over the CPUs. -/
structure RuntimeStats where
  wantedRoots : Nat := 0
  admittedRoots : Nat := 0
  sampledOutRoots : Nat := 0
  emittedEvents : Nat := 0
  droppedEvents : Nat := 0
  abortedRoots : Nat := 0
  stateInsertFailures : Nat := 0
  deriving DecidableEq, Repr

end GoFtrace.Bpf
