import GoFtrace.Bpf.Load
import GoFtrace.Bpf.Protocol
import GoFtrace.EventManager.Cases

/-!
# The tracer

The probe programs at one end of the event queue and the event manager at the other. The
moves of the two are interleaved in any order; a push fails when the queue is full. Types
that the manager learns are installed in the kernel at the same time.

* `kernel_view`, `deliver_view`: what a move means for one goroutine.
-/

namespace GoFtrace.Tracing

open Bpf (GoidKey)

/-! ## Probes -/

/-- A function that `Parse` attaches to: its entry and the offsets of its RET
instructions. -/
structure TracedFunc where
  name : String
  entry : UInt64
  rets : List UInt64
  wanted : Bool
  fetchArgs : List Uprobe.FetchArg := []
  values : List Uprobe.Value := []
  retFetchArgs : List Uprobe.FetchArg := []
  retValues : List Uprobe.Value := []

namespace TracedFunc

def entryProbe (f : TracedFunc) : GoFtrace.Uprobe :=
  { funcname := f.name, location := .atEntry, address := f.entry, relOffset := 0
    fetchArgs := f.fetchArgs, values := f.values, wanted := f.wanted }

def retProbe (f : TracedFunc) (off : UInt64) : GoFtrace.Uprobe :=
  { funcname := f.name, location := .atRet, address := f.entry + off, relOffset := off
    fetchArgs := f.retFetchArgs, values := f.retValues, wanted := f.wanted }

/-- A function without RET offsets is skipped. -/
def probes (f : TracedFunc) : List GoFtrace.Uprobe :=
  if f.rets.isEmpty then [] else f.entryProbe :: f.rets.map f.retProbe

end TracedFunc

/-- The probes that `Parse` returns: the goroutine exit and the attached functions. -/
def parse (goexit : UInt64) (fns : List TracedFunc) : List GoFtrace.Uprobe :=
  { funcname := "runtime.goexit1", location := .atGoroutineExit, address := goexit
    relOffset := 0 } :: fns.flatMap TracedFunc.probes

/-! ## States and moves -/

/-- Both ends of the queue. -/
structure System where
  kernel : Bpf.Maps := {}
  manager : EventManager := {}
  /-- For the record: whether the last event attempted for a goroutine was dropped. -/
  lost : GoidKey → Bool := fun _ => false

inductive Move where
  /-- A probe hit, or a change of the sample denominator. -/
  | kernel (a : Bpf.Action)
  /-- `Handle` takes the oldest event. -/
  | deliver (env : EventManager.Env)

/-- The recipes in the kernel once the manager has gone from `m` to `m'`. -/
def installed (m m' : EventManager) (recipes : UInt64 → Option Bpf.TypeRecipe) :
    UInt64 → Option Bpf.TypeRecipe := fun typeAddr =>
  if m'.learned typeAddr && !m.learned typeAddr then
    some (Bpf.encodeRecipe (m'.typeRecipes typeAddr))
  else recipes typeAddr

namespace System

/-- A step of the kernel. -/
def kernelStep (bcfg : Bpf.Config) (s : System) (a : Bpf.Action) : System :=
  let (kernel, attempted) := Bpf.step bcfg s.kernel a
  { s with
    kernel := kernel
    lost := match attempted with
      | none => s.lost
      | some e => Function.update s.lost e.key (!a.pushOk) }

/-- `Handle` of the oldest event of the queue. -/
def deliverStep (cfg : EventManager.Config) (s : System) (env : EventManager.Env) : System :=
  match s.kernel.eventQueue with
  | [] => s
  | event :: queue =>
    let manager := (EventManager.handle cfg env s.manager event).1
    { s with
      kernel := { s.kernel with
        eventQueue := queue
        typeRecipes := installed s.manager manager s.kernel.typeRecipes }
      manager := manager }

def step (bcfg : Bpf.Config) (cfg : EventManager.Config) (s : System) : Move → System
  | .kernel a => s.kernelStep bcfg a
  | .deliver env => s.deliverStep cfg env

def run (bcfg : Bpf.Config) (cfg : EventManager.Config) (s : System) (moves : List Move) :
    System :=
  moves.foldl (step bcfg cfg) s

theorem run_kernel (bcfg : Bpf.Config) (cfg : EventManager.Config) (s : System)
    (a : Bpf.Action) : s.run bcfg cfg [.kernel a] = s.kernelStep bcfg a := rfl

theorem run_deliver (bcfg : Bpf.Config) (cfg : EventManager.Config) (s : System)
    (env : EventManager.Env) : s.run bcfg cfg [.deliver env] = s.deliverStep cfg env := rfl

theorem run_append (bcfg : Bpf.Config) (cfg : EventManager.Config) (s : System)
    (xs ys : List Move) : s.run bcfg cfg (xs ++ ys) = (s.run bcfg cfg xs).run bcfg cfg ys :=
  List.foldl_append

/-- The queue has room for one more event. -/
def hasRoom (s : System) : Bool := s.kernel.eventQueue.length < Bpf.eventQueueEntries

/-- Every move of a run meets a condition on the state before it. -/
def Along (bcfg : Bpf.Config) (cfg : EventManager.Config) (P : System → Move → Prop) :
    System → List Move → Prop
  | _, [] => True
  | s, move :: moves => P s move ∧ Along bcfg cfg P (s.step bcfg cfg move) moves

/-- What the moves of a run preserve, when each meets its condition. -/
theorem run_induction {bcfg : Bpf.Config} {cfg : EventManager.Config}
    {P : System → Move → Prop} {Inv : System → Prop}
    (hstep : ∀ s move, Inv s → P s move → Inv (s.step bcfg cfg move)) (moves : List Move)
    {s : System} (hs : Inv s) (h : Along bcfg cfg P s moves) : Inv (s.run bcfg cfg moves) := by
  induction moves generalizing s with
  | nil => exact hs
  | cons move moves ih => exact ih (hstep s move hs h.1) h.2

theorem along_append {bcfg : Bpf.Config} {cfg : EventManager.Config}
    {P : System → Move → Prop} (xs ys : List Move) (s : System) :
    Along bcfg cfg P s (xs ++ ys) ↔
      Along bcfg cfg P s xs ∧ Along bcfg cfg P (s.run bcfg cfg xs) ys := by
  induction xs generalizing s with
  | nil => simp [Along, run]
  | cons x xs ih =>
    rw [List.cons_append, Along, ih, Along, and_assoc]
    rfl

/-- A push fails exactly when the queue is full. -/
def Bounded (bcfg : Bpf.Config) (s : System) : Move → Prop
  | .kernel a => (Bpf.step bcfg s.kernel a).2.isSome = true → a.pushOk = s.hasRoom
  | .deliver _ => True

/-- The events of one goroutine in the queue. -/
def queued (s : System) (k : GoidKey) : List Bpf.Event :=
  s.kernel.eventQueue.filter fun e => e.key = k

end System

/-! ## One goroutine -/

/-- What a step of the kernel means for one goroutine. -/
inductive KernelStep (bcfg : Bpf.Config) (k : GoidKey) (s : System) (a : Bpf.Action)
    (s' : System) : Prop
  | other (hstate : s'.kernel.shouldTraceGoid k = s.kernel.shouldTraceGoid k)
      (hqueued : s'.queued k = s.queued k) (hlost : s'.lost k = s.lost k)
  | own {e : Bpf.Event} (hkey : e.key = k)
      (hlocal : Bpf.LocalStep bcfg s.kernel.currentSampleDenominator k a
        (s.kernel.shouldTraceGoid k) (s'.kernel.shouldTraceGoid k) (some e.bare))
      (hqueued : s'.queued k = s.queued k ++ if a.pushOk then [e] else [])
      (hlost : s'.lost k = !a.pushOk)

theorem kernelStep_kernel (bcfg : Bpf.Config) (s : System) (a : Bpf.Action) :
    (s.kernelStep bcfg a).kernel = (Bpf.step bcfg s.kernel a).1 := rfl

theorem kernelStep_queued (bcfg : Bpf.Config) (s : System) (a : Bpf.Action) (k : GoidKey) :
    (s.kernelStep bcfg a).queued k = s.queued k ++
      if a.pushOk then ((Bpf.step bcfg s.kernel a).2.filter fun e => e.key = k).toList else [] := by
  rw [System.queued, kernelStep_kernel, Bpf.step_eventQueue, List.filter_append]
  congr 1
  split
  · cases (Bpf.step bcfg s.kernel a).2 with
    | none => rfl
    | some e => by_cases hk : e.key = k <;> simp [Option.filter, hk]
  · rfl

/-- The kernel, seen from one goroutine. -/
theorem kernelStep_cases (bcfg : Bpf.Config) (s : System) (a : Bpf.Action) (k : GoidKey) :
    KernelStep bcfg k s a (s.kernelStep bcfg a) := by
  have hcases := Bpf.stepLocal_cases bcfg s.kernel.currentSampleDenominator k a
    (s.kernel.shouldTraceGoid k)
  rw [← Bpf.step_state, ← Bpf.step_event] at hcases
  have hqueued := kernelStep_queued bcfg s a k
  have hlost : (s.kernelStep bcfg a).lost k =
      match (Bpf.step bcfg s.kernel a).2.filter fun e => e.key = k with
      | none => s.lost k
      | some _ => !a.pushOk := by
    unfold System.kernelStep
    dsimp only
    cases (Bpf.step bcfg s.kernel a).2 with
    | none => rfl
    | some e =>
      by_cases hk : e.key = k
      · subst hk
        simp [Option.filter]
      · simp [Option.filter, hk, Ne.symm hk]
  cases hfilter : (Bpf.step bcfg s.kernel a).2.filter fun e => e.key = k with
  | none =>
    rw [hfilter] at hcases hqueued hlost
    have hstate : (Bpf.step bcfg s.kernel a).1.shouldTraceGoid k =
        s.kernel.shouldTraceGoid k := by
      generalize (Bpf.step bcfg s.kernel a).1.shouldTraceGoid k = st' at hcases ⊢
      generalize s.kernel.shouldTraceGoid k = st at hcases ⊢
      cases hcases with
      | idle => rfl
    refine .other hstate ?_ hlost
    rw [hqueued]
    simp
  | some e =>
    rw [hfilter] at hcases hqueued hlost
    have hkey : e.key = k := by
      have hmem := Option.mem_filter_iff.mp (Option.mem_def.mpr hfilter)
      simpa using hmem.2
    exact .own hkey hcases hqueued hlost

end GoFtrace.Tracing
