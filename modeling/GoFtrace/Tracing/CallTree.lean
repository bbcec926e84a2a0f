import GoFtrace.Tracing.Attached
import GoFtrace.Tracing.Records

/-!
# The call tree

The probe programs and the event manager tell a call from a stack that has moved by the
last entry alone: another entry of the same function is taken for the same call, unless its
caller's frame is the one that the last entry was seen with. As long as no function is
entered right after its own entry by a caller with another frame, both reconstruct the calls.

* `calls_reconstructed`: `root_depth`, `TRACE_END` and the records, along every execution.
* `recursion_merged`: recursion through a function without probes is taken for one call.
-/

namespace GoFtrace.Tracing

open Bpf (GoidKey)
open EventManager (View hasFlag repeats)

/-! ## Open calls -/

/-- The call that opened the latest sample. -/
def rootOf (log : List CallEvent) : Option Nat :=
  ((log.filter fun t => t.event.traceFlags == Bpf.traceStart).getLast?).map CallEvent.id

/-- How many of some calls are calls of the function at `ip`, made since the call `root`. -/
def openCalls (calls : List Activation) (root : Nat) (ip : UInt64) : Nat :=
  calls.countP fun a => decide (root ≤ a.id) && a.fn.map TracedFunc.entry == some ip

/-- The traced ones among some calls, made since the call `root`. -/
def openStack (calls : List Activation) (root : Nat) : List (Nat × UInt64) :=
  calls.filterMap fun a => if root ≤ a.id then a.fn.map fun f => (a.id, f.entry) else none

theorem rootOf_append (log : List CallEvent) (t : CallEvent) :
    rootOf (log ++ [t]) =
      if t.event.traceFlags = Bpf.traceStart then some t.id else rootOf log := by
  rw [rootOf, List.filter_append]
  by_cases h : t.event.traceFlags = Bpf.traceStart
  · simp [h]
  · simp [h, rootOf]

section

variable {a : Activation} {calls : List Activation} {f : TracedFunc} {root : Nat} {ip : UInt64}

theorem openCalls_cons (hid : root ≤ a.id) (hf : a.fn = some f) :
    openCalls (a :: calls) root ip =
      openCalls calls root ip + if f.entry = ip then 1 else 0 := by
  simp [openCalls, List.countP_cons, hid, hf]

theorem openCalls_cons_none (hf : a.fn = none) :
    openCalls (a :: calls) root ip = openCalls calls root ip := by
  simp [openCalls, hf]

theorem openCalls_old (h : ∀ b ∈ calls, b.id < root) : openCalls calls root ip = 0 := by
  rw [openCalls, List.countP_eq_zero]
  intro b hb
  simp [Nat.not_le.mpr (h b hb)]

theorem openCalls_move (shift : UInt64 → UInt64) (calls : List Activation) :
    openCalls (calls.map (Activation.move shift)) root ip = openCalls calls root ip := by
  rw [openCalls, List.countP_map]
  rfl

theorem openCalls_pos {b : Activation} (hb : b ∈ calls) (hid : root ≤ b.id) (hf : b.fn = some f) :
    0 < openCalls calls root f.entry :=
  List.countP_pos_iff.mpr ⟨b, hb, by simp [hid, hf]⟩

theorem openStack_cons (hid : root ≤ a.id) (hf : a.fn = some f) :
    openStack (a :: calls) root = (a.id, f.entry) :: openStack calls root := by
  simp [openStack, hid, hf]

theorem openStack_cons_none (hf : a.fn = none) :
    openStack (a :: calls) root = openStack calls root := by
  simp [openStack, hf]

theorem openStack_old (h : ∀ b ∈ calls, b.id < root) : openStack calls root = [] := by
  rw [openStack, List.filterMap_eq_nil_iff]
  intro b hb
  rw [if_neg (Nat.not_le.mpr (h b hb))]

theorem openStack_move (shift : UInt64 → UInt64) (calls : List Activation) :
    openStack (calls.map (Activation.move shift)) root = openStack calls root := by
  rw [openStack, List.filterMap_map]
  rfl

theorem openStack_ne {b : Activation} (hb : b ∈ calls) (hid : root ≤ b.id) (hf : b.fn = some f) :
    openStack calls root ≠ [] := by
  refine List.ne_nil_of_mem (a := (b.id, f.entry)) (List.mem_filterMap.mpr ⟨b, hb, ?_⟩)
  simp [hid, hf]

end

/-! ## Probes -/

section

variable {bcfg : Bpf.Config} {cfg : EventManager.Config} {goexit : UInt64}
  {fns : List TracedFunc} {f : TracedFunc} {off : UInt64}

theorem entryProbe_mem (hparse : cfg.uprobes = parse goexit fns) (hf : f ∈ probed fns) :
    f.entryProbe ∈ cfg.uprobes := by
  rw [hparse]
  refine List.mem_cons_of_mem _ (mem_functionProbes.mpr ⟨f, hf, ?_⟩)
  rw [TracedFunc.probes, if_neg (by simpa using (mem_probed.mp hf).2)]
  exact List.mem_cons_self

theorem retProbe_mem (hparse : cfg.uprobes = parse goexit fns) (hf : f ∈ probed fns)
    (hoff : off ∈ f.rets) : f.retProbe off ∈ cfg.uprobes := by
  rw [hparse]
  refine List.mem_cons_of_mem _ (mem_functionProbes.mpr ⟨f, hf, ?_⟩)
  rw [TracedFunc.probes, if_neg (by simpa using (mem_probed.mp hf).2)]
  exact List.mem_cons_of_mem _ (List.mem_map_of_mem hoff)

theorem getUprobe_entry (hparse : cfg.uprobes = parse goexit fns) (hatt : Findable bcfg cfg)
    (hf : f ∈ probed fns) : cfg.getUprobe f.entry = some f.entryProbe :=
  hatt.resolves f.entryProbe (entryProbe_mem hparse hf) rfl

theorem getUprobe_ret (hparse : cfg.uprobes = parse goexit fns) (hatt : Findable bcfg cfg)
    (hf : f ∈ probed fns) (hoff : off ∈ f.rets) :
    cfg.getUprobe (f.entry + off) = some (f.retProbe off) :=
  hatt.resolves (f.retProbe off) (retProbe_mem hparse hf hoff) rfl

/-- A wanted entry probe is the entry probe of a function. -/
theorem eq_entryProbe {p : GoFtrace.Uprobe} (hp : p ∈ parse goexit fns)
    (hwanted : Bpf.isWantedEntry p = true) : ∃ g ∈ probed fns, p = g.entryProbe := by
  simp only [Bpf.isWantedEntry, Bool.and_eq_true, beq_iff_eq] at hwanted
  rcases List.mem_cons.mp hp with rfl | hp
  · cases hwanted.2
  · obtain ⟨g, hg, hp⟩ := mem_functionProbes.mp hp
    rw [TracedFunc.probes, if_neg (by simpa using (mem_probed.mp hg).2)] at hp
    rcases List.mem_cons.mp hp with rfl | hp
    · exact ⟨g, hg, rfl⟩
    · obtain ⟨off, -, rfl⟩ := List.mem_map.mp hp
      exact absurd hwanted.2 (by simp [TracedFunc.retProbe])

theorem retProbe_entry (f : TracedFunc) (off : UInt64) :
    (f.retProbe off).address - (f.retProbe off).relOffset = f.entry :=
  add_sub_cancel_right f.entry off

/-- No function starts at address 0. -/
theorem entry_ne_zero (hparse : cfg.uprobes = parse goexit fns) (hatt : Findable bcfg cfg)
    (hf : f ∈ probed fns) : f.entry ≠ 0 := by
  intro hzero
  have hget := getUprobe_entry hparse hatt hf
  rw [hzero] at hget
  cases hget

/-- A probe that is found is found by its name and offset. -/
theorem uprobeAt_of_getUprobe {ip : UInt64} {p : GoFtrace.Uprobe}
    (h : cfg.getUprobe ip = some p) : cfg.uprobeAt p.funcname p.relOffset = some p := by
  unfold EventManager.Config.getUprobe at h
  split at h
  · cases h
  · obtain ⟨sym, -, hsym⟩ := List.exists_of_findSome?_eq_some h
    have hmem := List.mem_of_getLast? hsym
    simp only [List.mem_filter, Bool.and_eq_true, beq_iff_eq] at hmem
    rw [hmem.2.1, hmem.2.2]
    exact hsym

/-- Functions of one name are one function. -/
theorem entryProbe_inj (hparse : cfg.uprobes = parse goexit fns) (hatt : Findable bcfg cfg)
    {g : TracedFunc} (hf : f ∈ probed fns) (hg : g ∈ probed fns) (hname : g.name = f.name) :
    g.entryProbe = f.entryProbe := by
  have hfat : cfg.uprobeAt f.name 0 = some f.entryProbe :=
    uprobeAt_of_getUprobe (getUprobe_entry hparse hatt hf)
  have hgat : cfg.uprobeAt g.name 0 = some g.entryProbe :=
    uprobeAt_of_getUprobe (getUprobe_entry hparse hatt hg)
  rw [hname, hfat] at hgat
  exact (Option.some.inj hgat).symm

/-- Only the return addresses of a wanted function lead to an entry, its own. -/
theorem shouldTraceRet_iff (hparse : cfg.uprobes = parse goexit fns) (hatt : Findable bcfg cfg)
    (hadaptive : bcfg.adaptiveSampling = true) (hf : f ∈ probed fns) (hoff : off ∈ f.rets)
    (entry : UInt64) :
    bcfg.shouldTraceRet (f.entry + off) = some entry ↔
      bcfg.shouldTraceRip f.entry = true ∧ entry = f.entry := by
  have hloaded := Bpf.load_ok hatt.loaded
  have hget := getUprobe_entry hparse hatt hf
  have hwanted : bcfg.shouldTraceRip f.entry = true ↔ f.wanted = true := by
    rw [hloaded.shouldTraceRip]
    constructor
    · rintro ⟨p, hp, hpw, haddr⟩
      have hpget := hatt.resolves p hp (isFunctionProbe_of_entry hpw)
      rw [haddr, hget] at hpget
      obtain rfl := Option.some.inj hpget
      simp only [Bpf.isWantedEntry, Bool.and_eq_true] at hpw
      exact hpw.1
    · intro hw
      exact ⟨f.entryProbe, entryProbe_mem hparse hf, by
        simp [Bpf.isWantedEntry, TracedFunc.entryProbe, hw], rfl⟩
  have hret : Bpf.isWantedRet cfg.adaptive (f.retProbe off) = f.wanted := by
    rw [Bpf.isWantedRet, ← hloaded.adaptiveSampling, hadaptive]
    simp [TracedFunc.retProbe]
  -- the wanted entry probe of this name that was stored last is the one of `f`
  have hentry : f.wanted = true → Bpf.wantedEntry cfg.uprobes f.name = f.entry := by
    intro hw
    have hmem : f.entryProbe ∈ cfg.uprobes.filter fun p =>
        Bpf.isWantedEntry p && p.funcname == f.name := by
      rw [List.mem_filter]
      exact ⟨entryProbe_mem hparse hf, by simp [Bpf.isWantedEntry, TracedFunc.entryProbe, hw]⟩
    unfold Bpf.wantedEntry
    cases hlast : (cfg.uprobes.filter fun p =>
        Bpf.isWantedEntry p && p.funcname == f.name).getLast? with
    | none =>
      rw [List.getLast?_eq_none_iff.mp hlast] at hmem
      cases hmem
    | some q =>
      have hq := List.mem_of_getLast? hlast
      simp only [List.mem_filter, Bool.and_eq_true, beq_iff_eq] at hq
      obtain ⟨hqmem, hqwanted, hqname⟩ := hq
      rw [hparse] at hqmem
      obtain ⟨g, hg, rfl⟩ := eq_entryProbe hqmem hqwanted
      rw [entryProbe_inj hparse hatt hf hg hqname]
      rfl
  rw [hwanted, hloaded.shouldTraceRet]
  constructor
  · rintro ⟨p, hp, hpw, haddr, hpentry⟩
    have hpget := hatt.resolves p hp (isFunctionProbe_of_ret hpw)
    rw [haddr, getUprobe_ret hparse hatt hf hoff] at hpget
    obtain rfl := Option.some.inj hpget
    rw [hret] at hpw
    exact ⟨hpw, hpentry.symm.trans (hentry hpw)⟩
  · rintro ⟨hw, rfl⟩
    exact ⟨f.retProbe off, retProbe_mem hparse hf hoff, hret.trans hw, rfl, hentry hw⟩

end

/-! ## The last hit -/

/-- The trace state knows the last probe hit. -/
def LastHit (g : Goroutine) (st : Bpf.TraceState) : Prop :=
  match g.lastEntry with
  | some (ip, bp) => st.lastIp = ip ∧ st.lastBp = bp
  | none => st.lastIp = 0

/-- The event is the one of the last probe hit. -/
structure LastEvent (g : Goroutine) (t : CallEvent) : Prop where
  hit : match g.lastEntry with
    | some (ip, bp) => t.event.location = Bpf.entPoint ∧ t.event.ip = ip ∧ t.event.bp = bp
    | none => t.event.location = Bpf.retPoint ∧ t.event.bp = 0
  id : g.entering = true → ∀ a calls, g.calls = a :: calls → a.fn ≠ none → t.id = a.id

/-- Calls are told from moved stacks: a function that is entered right after its own entry is
called from the frame which that entry was seen with. -/
def Step.Direct (g : Goroutine) : Step → Prop
  | .call (some f) _ _ => ∀ bp, g.lastEntry = some (f.entry, bp) → frameOf g.calls = bp
  | _ => True

/-- Whether another entry of the function at `ip` is taken for the last one. -/
def takenForLast (g : Goroutine) (ip callerBp : UInt64) : Bool :=
  match g.lastEntry with
  | some (lastIp, lastBp) => lastIp == ip && lastBp != callerBp
  | none => false

theorem duplicate_eq {g : Goroutine} {st : Bpf.TraceState} (h : LastHit g st) {ip : UInt64}
    (hip : ip ≠ 0) (callerBp : UInt64) :
    st.duplicate ip callerBp = takenForLast g ip callerBp := by
  unfold LastHit at h
  unfold Bpf.TraceState.duplicate takenForLast
  cases hlast : g.lastEntry with
  | none =>
    rw [hlast] at h
    simp [show st.lastIp = 0 from h, Ne.symm hip]
  | some e =>
    rw [hlast] at h
    obtain ⟨hip, hbp⟩ := h
    simp [hip, hbp]

theorem repeats_eq {g : Goroutine} {t : CallEvent} (h : LastEvent g t) {e : Bpf.Event}
    {ip bp callerBp : UInt64} {flags : UInt8} (he : IsEntry e ip bp callerBp flags) :
    repeats t.event e = takenForLast g ip callerBp := by
  have hhit := h.hit
  unfold takenForLast
  cases hlast : g.lastEntry with
  | none =>
    rw [hlast] at hhit
    have hne : (Bpf.retPoint == Bpf.entPoint) = false := by decide
    simp [repeats, hhit.1, he.location, hne]
  | some e' =>
    rw [hlast] at hhit
    obtain ⟨hloc, hip, hbp⟩ := hhit
    simp [repeats, hloc, hip, hbp, he.location, he.ip, he.callerBp]

/-- Nothing repeats a return. -/
theorem repeats_return {g : Goroutine} {t : CallEvent} (h : LastEvent g t) {e : Bpf.Event}
    {ip : UInt64} {flags : UInt8} (he : IsReturn e ip flags) : repeats t.event e = false := by
  have hhit := h.hit
  cases hlast : g.lastEntry with
  | none =>
    rw [hlast] at hhit
    simp [repeats, hhit.2, he.callerBp]
  | some e' =>
    rw [hlast] at hhit
    have hne : (Bpf.entPoint == Bpf.retPoint) = false := by decide
    simp [repeats, hhit.1, he.location, hne]

theorem direct_call {g : Goroutine} {f : TracedFunc} {bp : UInt64} {h : Bpf.Hit}
    (hdirect : Step.Direct g (.call (some f) bp h)) :
    takenForLast g f.entry (frameOf g.calls) = false := by
  unfold takenForLast
  cases hlast : g.lastEntry with
  | none => rfl
  | some e =>
    obtain ⟨ip, last⟩ := e
    by_cases hip : ip = f.entry
    · subst hip
      simp [hdirect last hlast]
    · simp [hip]

/-- After the stack has moved, the caller's frame is another one. -/
theorem grown_entry {fns : List TracedFunc} {k : GoidKey} {g : Goroutine}
    (hwf : g.WellFormed fns) {shift : UInt64 → UInt64} {h : Bpf.Hit}
    (hvalid : Step.Valid fns k g (.grow shift h)) {a : Activation} {calls : List Activation}
    {f : TracedFunc} (hcalls : g.calls = a :: calls) (hf : a.fn = some f) :
    takenForLast g f.entry (frameOf (calls.map (Activation.move shift))) = true := by
  obtain ⟨hent, -, hnew, -⟩ := hvalid
  obtain ⟨b, rest, hb, hlast⟩ := hwf.entering hent
  rw [hcalls] at hb
  obtain ⟨rfl, rfl⟩ := List.cons.inj hb
  have hne : a.bp ≠ frameOf (calls.map (Activation.move shift)) := by
    rw [hcalls] at hnew
    cases calls with
    | nil => exact hwf.frame_ne a (by rw [hcalls]; exact List.mem_cons_self)
    | cons c calls => exact Ne.symm (hnew c (by simp) a (by simp))
  simp [takenForLast, hlast f hf, hne]

/-! ## Samples and calls -/

/-- The depth of the root function, for the open sample that call `a` of `f` started. -/
structure Depth (bcfg : Bpf.Config) (g : Goroutine) (st : Bpf.TraceState) (log : List CallEvent)
    (a : Activation) (f : TracedFunc) : Prop where
  lastHit : LastHit g st
  root : rootOf log = some a.id
  rootIp : st.rootIp = f.entry
  wanted : bcfg.shouldTraceRip f.entry = true
  depth : st.rootDepth.toNat = openCalls g.calls a.id f.entry
  depth_le : st.rootDepth.toNat ≤ st.eventCount.toNat
  count_le : st.eventCount.toNat ≤ Bpf.maxSampleEvents.toNat

/-- The open sample, if there is one, and its open calls. -/
inductive Sampling (bcfg : Bpf.Config) (g : Goroutine) (log : List CallEvent) :
    Option Bpf.TraceState → List CallEvent → List (Nat × UInt64) → Prop
  | idle {state : Option Bpf.TraceState}
      (hstate : bcfg.adaptiveSampling = true → state = none) : Sampling bcfg g log state [] []
  | live {st : Bpf.TraceState} {root : CallEvent} {ts : List CallEvent} {a : Activation}
      {f : TracedFunc} (ha : a ∈ g.calls) (hid : a.id = root.id) (hf : a.fn = some f)
      (hbelow : ∀ t ∈ root :: ts, t.id < g.next)
      (hlast : ∀ t, (root :: ts).getLast? = some t → LastEvent g t)
      (hdepth : bcfg.adaptiveSampling = true → Depth bcfg g st log a f) :
      Sampling bcfg g log (some st) (root :: ts) (openStack g.calls root.id)

/-- A call or return without a probe, or a move of the stack in one. -/
structure Quiet (g g' : Goroutine) : Prop where
  lastEntry : g'.lastEntry = g.lastEntry
  next : g.next ≤ g'.next
  openCalls : ∀ root ip, openCalls g'.calls root ip = openCalls g.calls root ip
  openStack : ∀ root, openStack g'.calls root = openStack g.calls root
  mem : ∀ a ∈ g.calls, ∀ f, a.fn = some f → ∃ a' ∈ g'.calls, a'.id = a.id ∧ a'.fn = some f
  entering : ∀ a calls, g'.entering = true → g'.calls = a :: calls → a.fn = none

theorem Sampling.quiet {bcfg : Bpf.Config} {g g' : Goroutine} {log sample : List CallEvent}
    {state : Option Bpf.TraceState} {stack : List (Nat × UInt64)}
    (h : Sampling bcfg g log state sample stack) (hq : Quiet g g') :
    Sampling bcfg g' log state sample stack := by
  cases h with
  | idle hstate => exact .idle hstate
  | @live st root ts a f ha hid hf hbelow hlast hdepth =>
    obtain ⟨a', ha', hid', hf'⟩ := hq.mem a ha f hf
    rw [← hq.openStack]
    refine .live ha' (hid'.trans hid) hf' (fun t ht => Nat.lt_of_lt_of_le (hbelow t ht) hq.next)
      (fun t ht => ⟨?_, fun hent b calls hb hne => absurd (hq.entering b calls hent hb) hne⟩)
      fun hadaptive => ?_
    · rw [hq.lastEntry]
      exact (hlast t ht).hit
    · have hd := hdepth hadaptive
      refine ⟨?_, hd.root.trans (congrArg some hid'.symm), hd.rootIp, hd.wanted, ?_, hd.depth_le,
        hd.count_le⟩
      · unfold LastHit
        rw [hq.lastEntry]
        exact hd.lastHit
      · rw [hq.openCalls, hid']
        exact hd.depth

theorem quiet_call {g : Goroutine} {bp : UInt64} {h : Bpf.Hit} :
    Quiet g (g.step (.call none bp h)) where
  lastEntry := Goroutine.enter_lastEntry_none rfl rfl
  next := by simp [Goroutine.step]
  openCalls root ip := by
    rw [Goroutine.step, Goroutine.enter_calls]
    exact openCalls_cons_none rfl
  openStack root := by
    rw [Goroutine.step, Goroutine.enter_calls]
    exact openStack_cons_none rfl
  mem a ha f hf := by
    rw [Goroutine.step, Goroutine.enter_calls]
    exact ⟨a, List.mem_cons_of_mem _ ha, rfl, hf⟩
  entering a calls _ hcalls := by
    rw [Goroutine.step, Goroutine.enter_calls] at hcalls
    rw [← (List.cons.inj hcalls).1]

theorem quiet_grow {g : Goroutine} {shift : UInt64 → UInt64} {h : Bpf.Hit} {a : Activation}
    {calls : List Activation} (hcalls : g.calls = a :: calls) (hf : a.fn = none) :
    Quiet g (g.step (.grow shift h)) where
  lastEntry := Goroutine.enter_lastEntry_none (Goroutine.moved_calls hcalls shift) hf
  next := by simp [Goroutine.step]
  openCalls root ip := by
    rw [Goroutine.step, Goroutine.enter_calls]
    exact openCalls_move shift g.calls
  openStack root := by
    rw [Goroutine.step, Goroutine.enter_calls]
    exact openStack_move shift g.calls
  mem b hb f hbf := by
    rw [Goroutine.step, Goroutine.enter_calls]
    exact ⟨b.move shift, List.mem_map_of_mem hb, rfl, hbf⟩
  entering b calls' _ hcalls' := by
    rw [Goroutine.step, Goroutine.enter_calls, hcalls] at hcalls'
    rw [← (List.cons.inj hcalls').1]
    exact hf

theorem quiet_ret {g : Goroutine} {off : UInt64} {h : Bpf.Hit} {a : Activation}
    {calls : List Activation} (hcalls : g.calls = a :: calls) (hf : a.fn = none) :
    Quiet g (g.step (.ret off h)) where
  lastEntry := Goroutine.leave_lastEntry_none hcalls hf
  next := by simp [Goroutine.step]
  openCalls root ip := by
    rw [Goroutine.step, Goroutine.leave_calls, hcalls]
    exact (openCalls_cons_none hf).symm
  openStack root := by
    rw [Goroutine.step, Goroutine.leave_calls, hcalls]
    exact (openStack_cons_none hf).symm
  mem b hb f hbf := by
    rw [Goroutine.step, Goroutine.leave_calls]
    rw [hcalls] at hb ⊢
    rcases List.mem_cons.mp hb with rfl | hb
    · rw [hf] at hbf
      cases hbf
    · exact ⟨b, hb, rfl, hbf⟩
  entering b calls' hent := by
    rw [Goroutine.step, Goroutine.leave_entering] at hent
    cases hent

/-! ## Entries -/

/-- Call `a` of `f` is entered, `again` after the stack has moved. -/
structure Enters (g g' : Goroutine) (a : Activation) (rest : List Activation) (f : TracedFunc)
    (again : Bool) : Prop where
  calls : g'.calls = a :: rest
  fn : a.fn = some f
  lastEntry : g'.lastEntry = some (f.entry, a.bp)
  next : g.next ≤ g'.next
  fresh : again = false → a.id = g.next
  same : again = true → g.entering = true ∧
    ∃ b below, g.calls = b :: below ∧ b.fn ≠ none ∧ a.id = b.id
  openStack : ∀ root, root ≤ a.id → openStack g'.calls root =
    if again then openStack g.calls root else (a.id, f.entry) :: openStack g.calls root
  openCalls : ∀ root ip, root ≤ a.id → openCalls g'.calls root ip =
    openCalls g.calls root ip + if !again && f.entry == ip then 1 else 0
  mem : ∀ b ∈ g.calls, ∀ f', b.fn = some f' → ∃ b' ∈ g'.calls, b'.id = b.id ∧ b'.fn = some f'

theorem enters_call {g : Goroutine} {f : TracedFunc} {bp : UInt64} {h : Bpf.Hit} :
    Enters g (g.step (.call (some f) bp h)) { id := g.next, fn := some f, bp := bp } g.calls f
      false where
  calls := by rw [Goroutine.step, Goroutine.enter_calls]
  fn := rfl
  lastEntry := Goroutine.enter_lastEntry rfl rfl
  next := by simp [Goroutine.step]
  fresh _ := rfl
  same hfalse := absurd hfalse Bool.false_ne_true
  openStack root hroot := by
    rw [Goroutine.step, Goroutine.enter_calls, openStack_cons hroot rfl]
    rfl
  openCalls root ip hroot := by
    rw [Goroutine.step, Goroutine.enter_calls, openCalls_cons hroot rfl]
    simp
  mem b hb f' hf' := by
    rw [Goroutine.step, Goroutine.enter_calls]
    exact ⟨b, List.mem_cons_of_mem _ hb, rfl, hf'⟩

theorem enters_grow {fns : List TracedFunc} {k : GoidKey} {g : Goroutine}
    {shift : UInt64 → UInt64} {h : Bpf.Hit}
    (hvalid : Step.Valid fns k g (.grow shift h)) {a : Activation} {calls : List Activation}
    {f : TracedFunc} (hcalls : g.calls = a :: calls) (hf : a.fn = some f) :
    Enters g (g.step (.grow shift h)) (a.move shift) (calls.map (Activation.move shift)) f
      true where
  calls := by
    rw [Goroutine.step, Goroutine.enter_calls, hcalls]
    rfl
  fn := hf
  lastEntry := Goroutine.enter_lastEntry (Goroutine.moved_calls hcalls shift) hf
  next := by simp [Goroutine.step]
  fresh hfalse := absurd hfalse (by decide)
  same _ := ⟨hvalid.1, a, calls, hcalls, by rw [hf]; exact Option.some_ne_none f, rfl⟩
  openStack root _ := by
    rw [Goroutine.step, Goroutine.enter_calls, if_pos rfl]
    exact openStack_move shift g.calls
  openCalls root ip _ := by
    rw [Goroutine.step, Goroutine.enter_calls]
    exact openCalls_move shift g.calls
  mem b hb f' hf' := by
    rw [Goroutine.step, Goroutine.enter_calls]
    exact ⟨b.move shift, List.mem_map_of_mem hb, rfl, hf'⟩

/-- The calls under a call are older. -/
theorem Goroutine.WellFormed.older {fns : List TracedFunc} {g : Goroutine}
    (h : g.WellFormed fns) {a : Activation} {calls : List Activation}
    (hcalls : g.calls = a :: calls) : ∀ b ∈ calls, b.id < a.id := by
  have hids := h.ids
  rw [hcalls] at hids
  exact (List.pairwise_cons.mp hids).1

theorem Goroutine.WellFormed.id_le {fns : List TracedFunc} {g : Goroutine}
    (h : g.WellFormed fns) {a : Activation} {calls : List Activation}
    (hcalls : g.calls = a :: calls) {b : Activation} (hb : b ∈ g.calls) : b.id ≤ a.id := by
  rw [hcalls] at hb
  rcases List.mem_cons.mp hb with rfl | hb
  · exact Nat.le_refl _
  · exact Nat.le_of_lt (h.older hcalls b hb)

section

variable {bcfg : Bpf.Config} {cfg : EventManager.Config} {fns : List TracedFunc}
  {g g' : Goroutine} {a : Activation} {calls : List Activation} {f : TracedFunc} {again : Bool}
  {log sample : List CallEvent} {stack : List (Nat × UInt64)}

theorem Enters.lastHit (h : Enters g g' a calls f again) {st : Bpf.TraceState}
    (hip : st.lastIp = f.entry) (hbp : st.lastBp = a.bp) : LastHit g' st := by
  unfold LastHit
  rw [h.lastEntry]
  exact ⟨hip, hbp⟩

theorem Enters.lastEvent (h : Enters g g' a calls f again) {t : CallEvent} {flags : UInt8}
    (hid : t.id = a.id) (ht : IsEntry t.event f.entry a.bp (frameOf calls) flags) :
    LastEvent g' t := by
  refine ⟨?_, fun _ b rest hb _ => ?_⟩
  · rw [h.lastEntry]
    exact ⟨ht.location, ht.ip, ht.bp⟩
  · rw [h.calls] at hb
    rw [hid, (List.cons.inj hb).1]

/-- The depth of the root function once it, or another function, is entered. -/
theorem Depth.enter {st : Bpf.TraceState} {b : Activation} {f₀ : TracedFunc}
    (hd : Depth bcfg g st log b f₀) (hadaptive : bcfg.adaptiveSampling = true)
    (h : Enters g g' a calls f again)
    (htaken : takenForLast g f.entry (frameOf calls) = again) (hb : b.id ≤ a.id)
    (hentry : f.entry ≠ 0)
    (ho : st.overrun bcfg = false) {t : CallEvent}
    (ht : IsEntry t.event f.entry a.bp (frameOf calls) 0) {b' : Activation} (hb' : b'.id = b.id) :
    Depth bcfg g' (st.entered bcfg t.event) (log ++ [t]) b' f₀ := by
  have hcount : st.eventCount.toNat < Bpf.maxSampleEvents.toNat := by
    rw [Bpf.TraceState.overrun_eq hadaptive rfl hd.count_le, decide_eq_false_iff_not] at ho
    exact lt_of_le_of_ne hd.count_le ho
  have hsucc : (st.eventCount + 1).toNat = st.eventCount.toNat + 1 :=
    Bpf.TraceState.succ_eventCount rfl hcount
  have hdup : st.duplicate t.event.ip t.event.callerBp = again := by
    rw [ht.ip, ht.callerBp, duplicate_eq hd.lastHit hentry, htaken]
  have hdeeper : (!st.overrun bcfg && bcfg.adaptiveSampling && bcfg.shouldTraceRip t.event.ip &&
      st.rootIp == t.event.ip && !st.duplicate t.event.ip t.event.callerBp) =
      (!again && f.entry == f₀.entry) := by
    rw [ho, hadaptive, hdup, ht.ip, hd.rootIp]
    by_cases heq : f₀.entry = f.entry
    · rw [heq, ← heq, hd.wanted]
      simp
    · rw [beq_eq_false_iff_ne.mpr heq, beq_eq_false_iff_ne.mpr (Ne.symm heq)]
      simp
  have hdepth : (st.entered bcfg t.event).rootDepth.toNat =
      st.rootDepth.toNat + if !again && f.entry == f₀.entry then 1 else 0 := by
    simp only [Bpf.TraceState.entered, hdeeper]
    split
    · have h4096 : Bpf.maxSampleEvents.toNat = 4096 := rfl
      have hle := hd.depth_le
      rw [UInt32.toNat_add, show (1 : UInt32).toNat = 1 from rfl, Nat.mod_eq_of_lt (by omega)]
    · rfl
  refine ⟨h.lastHit ht.ip ht.bp, ?_, hd.rootIp, hd.wanted, ?_, ?_, ?_⟩
  · rw [rootOf_append, ht.traceFlags, if_neg (by decide), hb']
    exact hd.root
  · rw [hdepth, hb', h.openCalls b.id f₀.entry hb, hd.depth]
  · rw [hdepth]
    change _ ≤ (st.eventCount + 1).toNat
    have hle := hd.depth_le
    split <;> omega
  · change (st.eventCount + 1).toNat ≤ _
    omega

theorem extendSample_entry {t : CallEvent} (hloc : t.event.location = Bpf.entPoint)
    (hflags : t.event.traceFlags ≠ Bpf.traceAbort) (sample : List CallEvent) :
    extendSample sample t = sample ++ [t] := by
  unfold extendSample
  rw [if_neg hflags, hloc, if_neg (by decide)]

theorem extendSample_abort {t : CallEvent} (hflags : t.event.traceFlags = Bpf.traceAbort)
    (sample : List CallEvent) : extendSample sample t = [] := by
  unfold extendSample
  rw [if_pos hflags]

theorem startFlag_ne_abort (bcfg : Bpf.Config) : startFlag bcfg ≠ Bpf.traceAbort := by
  unfold startFlag
  split <;> decide

/-- The first event of a sample. -/
theorem Sampling.first {st : Bpf.TraceState} {t : CallEvent} {flags : UInt8}
    (hwf : g'.WellFormed fns) (h : Enters g g' a calls f again) (hid : t.id = a.id)
    (ht : IsEntry t.event f.entry a.bp (frameOf calls) flags)
    (hdepth : bcfg.adaptiveSampling = true → Depth bcfg g' st log a f) :
    Sampling bcfg g' log (some st) [t] [(t.id, t.event.ip)] := by
  have hmem : a ∈ g'.calls := by
    rw [h.calls]
    exact List.mem_cons_self
  have hold := hwf.older h.calls
  have hstack : openStack g'.calls t.id = [(t.id, t.event.ip)] := by
    rw [hid, h.calls, openStack_cons (Nat.le_refl _) h.fn, openStack_old hold, ht.ip]
  rw [← hstack]
  refine .live hmem hid.symm h.fn (fun u hu => ?_) (fun u hu => ?_) hdepth
  · rw [List.mem_singleton.mp hu, hid]
    exact hwf.below a hmem
  · rw [← Option.some.inj hu]
    exact h.lastEvent hid ht

/-- A sample goes on with an event. -/
theorem Sampling.append {g : Goroutine} {st : Bpf.TraceState} {root t : CallEvent}
    {ts : List CallEvent} {b : Activation} {f₀ : TracedFunc} (hb : b ∈ g.calls)
    (hbid : b.id = root.id) (hf : b.fn = some f₀) (hbelow : ∀ u ∈ root :: ts, u.id < g.next)
    (ht : t.id < g.next) (hlast : LastEvent g t)
    (hdepth : bcfg.adaptiveSampling = true → Depth bcfg g st log b f₀) :
    Sampling bcfg g log (some st) (root :: ts ++ [t]) (openStack g.calls root.id) := by
  refine .live hb hbid hf (fun u hu => ?_) (fun u hu => ?_) hdepth
  · have hu : u ∈ (root :: ts) ++ [t] := hu
    rcases List.mem_append.mp hu with hu | hu
    · exact hbelow u hu
    · rw [List.mem_singleton.mp hu]
      exact ht
  · have hu : ((root :: ts) ++ [t]).getLast? = some u := hu
    rw [List.getLast?_concat] at hu
    rw [← Option.some.inj hu]
    exact hlast

/-- An event of an entry continues the sample. -/
theorem Sampling.enter {state state' : Option Bpf.TraceState} {t : CallEvent}
    (hadaptive : cfg.adaptive = bcfg.adaptiveSampling)
    (hp : cfg.getUprobe f.entry = some f.entryProbe) (hentry : f.entry ≠ 0)
    (hwf : g'.WellFormed fns) (h : Enters g g' a calls f again)
    (htaken : state ≠ none → takenForLast g f.entry (frameOf calls) = again)
    (hs : Sampling bcfg g log state sample stack) (hid : t.id = a.id)
    (he : EntryEffect bcfg f.entry a.bp (frameOf calls) state state' (some t.event)) :
    ∃ stack', Sampling bcfg g' (log ++ [t]) state' (extendSample sample t) stack' ∧
      Recording cfg t sample stack (extendSample sample t) stack' := by
  have hmem : a ∈ g'.calls := by
    rw [h.calls]
    exact List.mem_cons_self
  cases hs with
  | idle hstate =>
    cases he with
    | start he hwanted =>
      have hp' : cfg.getUprobe t.event.ip = some f.entryProbe := by rw [he.ip, hp]
      rw [extendSample_entry he.location (by rw [he.traceFlags]; exact startFlag_ne_abort bcfg)]
      refine ⟨_, Sampling.first hwf h hid he fun ha => ?_, .first hp' he.location ?_⟩
      · have hold := hwf.older h.calls
        refine ⟨h.lastHit he.ip he.bp, ?_, he.ip, hwanted, ?_, Nat.le_refl _,
          (by decide : (1 : UInt32).toNat ≤ Bpf.maxSampleEvents.toNat)⟩
        · rw [rootOf_append, he.traceFlags, startFlag, if_pos ha, if_pos rfl, hid]
        · rw [h.calls, openCalls_cons (Nat.le_refl _) h.fn, openCalls_old hold, if_pos rfl]
          rfl
      · rw [he.traceFlags, startFlag, hadaptive]
    | entry ho he =>
      have ha : bcfg.adaptiveSampling = false :=
        Bool.eq_false_iff.mpr fun ha => Option.some_ne_none _ (hstate ha)
      have hp' : cfg.getUprobe t.event.ip = some f.entryProbe := by rw [he.ip, hp]
      rw [extendSample_entry he.location (by rw [he.traceFlags]; decide)]
      refine ⟨_, Sampling.first hwf h hid he fun h => ?_, .first hp' he.location ?_⟩
      · rw [ha] at h
        cases h
      · rw [he.traceFlags, hadaptive, ha]
        rfl
    | abort ho he =>
      have ha := Bpf.TraceState.adaptive_of_overrun ho
      cases hstate ha
  | @live st root ts b f₀ hb hbid hf hbelow hlast hdepth =>
    obtain ⟨b', hb', hbid', hf'⟩ := h.mem b hb f₀ hf
    have hle : root.id ≤ a.id := by
      rw [← hbid, ← hbid']
      exact hwf.id_le h.calls hb'
    have htaken := htaken (Option.some_ne_none st)
    cases he with
    | entry ho he =>
      have hp' : cfg.getUprobe t.event.ip = some f.entryProbe := by rw [he.ip, hp]
      obtain ⟨last, hl⟩ := Option.isSome_iff_exists.mp
        (List.getLast?_isSome.mpr (List.cons_ne_nil root ts))
      have hrep : repeats last.event t.event = again := by
        rw [repeats_eq (hlast last hl) he, htaken]
      rw [extendSample_entry he.location (by rw [he.traceFlags]; decide)]
      refine ⟨openStack g'.calls root.id, ?_, ?_⟩
      · refine .append hb' (hbid'.trans hbid) hf' (fun u hu => ?_) ?_ (h.lastEvent hid he)
          fun ha => ?_
        · exact Nat.lt_of_lt_of_le (hbelow u hu) h.next
        · rw [hid]
          exact hwf.below a hmem
        · exact (hdepth ha).enter ha h htaken (by rw [hbid]; exact hle) hentry ho he hbid'
      · rw [h.openStack root.id hle]
        cases again with
        | false =>
          rw [if_neg Bool.false_ne_true, ← hid, ← he.ip]
          refine .entry hp' he.location he.traceFlags hl hrep fun u hu => ?_
          rw [hid, h.fresh rfl]
          exact Nat.ne_of_lt (hbelow u hu)
        | true =>
          obtain ⟨hent, c, below, hc, hcfn, hcid⟩ := h.same rfl
          have hlid : last.id = t.id := by
            rw [(hlast last hl).id hent c below hc hcfn, hid, hcid]
          obtain ⟨init, hinit⟩ := List.getLast?_eq_some_iff.mp hl
          rw [if_pos rfl, hinit]
          exact .again hp' he.location he.traceFlags hrep hlid
            (openStack_ne hb (Nat.le_of_eq hbid.symm) hf)
    | abort ho he =>
      have ha := Bpf.TraceState.adaptive_of_overrun ho
      rw [extendSample_abort he.traceFlags]
      have hp' : cfg.getUprobe t.event.ip = some f.entryProbe := by rw [he.ip, hp]
      refine ⟨[], .idle fun _ => rfl, .abort (hadaptive.trans ha) hp' ?_ he.traceFlags⟩
      rw [he.location]
      decide

/-! ## Returns -/

theorem extendSample_return {t root : CallEvent} {ts : List CallEvent}
    (hloc : t.event.location = Bpf.retPoint) (hflags : t.event.traceFlags ≠ Bpf.traceAbort) :
    extendSample (root :: ts) t = if root.id = t.id then [] else root :: ts ++ [t] := by
  unfold extendSample
  rw [if_neg hflags, if_pos hloc]

theorem extendSample_orphan {t : CallEvent} (hloc : t.event.location = Bpf.retPoint) :
    extendSample [] t = [] := by
  simp [extendSample, hloc]

theorem lastEvent_return (hcalls : g.calls = a :: calls) (hf : a.fn = some f) {t : CallEvent}
    {ip : UInt64} {flags : UInt8} (ht : IsReturn t.event ip flags) : LastEvent g.leave t := by
  refine ⟨?_, fun hent => ?_⟩
  · rw [Goroutine.leave_lastEntry hcalls hf]
    exact ⟨ht.location, ht.bp⟩
  · rw [Goroutine.leave_entering] at hent
    cases hent

/-- The root function is at its first level when the call returns that started the sample. -/
theorem Depth.root_returns {st : Bpf.TraceState} {b : Activation} {f₀ : TracedFunc}
    (hd : Depth bcfg g st log b f₀) (hwf : g.WellFormed fns) (hcalls : g.calls = a :: calls)
    (hb : b ∈ g.calls) (hbf : b.fn = some f₀) (hf : a.fn = some f) :
    (a.id = b.id → f = f₀ ∧ st.rootDepth.toNat = 1) ∧
      (a.id ≠ b.id → f.entry = f₀.entry → 1 < st.rootDepth.toNat) := by
  have hold := hwf.older hcalls
  rw [hcalls] at hb
  have hdepth := hd.depth
  rw [hcalls] at hdepth
  constructor
  · intro hab
    have heq : b = a := by
      rcases List.mem_cons.mp hb with heq | hb
      · exact heq
      · exact absurd hab (Nat.ne_of_gt (hold b hb))
    subst heq
    rw [hf] at hbf
    obtain rfl := Option.some.inj hbf
    rw [openCalls_cons (Nat.le_refl _) hf, openCalls_old hold, if_pos rfl] at hdepth
    exact ⟨rfl, hdepth⟩
  · intro hab hentry
    have hbmem : b ∈ calls := by
      rcases List.mem_cons.mp hb with heq | hb
      · exact absurd (congrArg Activation.id heq).symm hab
      · exact hb
    rw [openCalls_cons (Nat.le_of_lt (hold b hbmem)) hf, if_pos hentry] at hdepth
    have hpos := openCalls_pos hbmem (Nat.le_refl _) hbf
    omega

/-- The depth of the root function once another call than the one that started the sample has
returned. -/
theorem Depth.leave {st : Bpf.TraceState} {b : Activation} {f₀ : TracedFunc} {off : UInt64}
    (hd : Depth bcfg g st log b f₀) (hadaptive : bcfg.adaptiveSampling = true)
    (hwf : g.WellFormed fns) (hcalls : g.calls = a :: calls) (hb : b ∈ calls)
    (hbf : b.fn = some f₀) (hf : a.fn = some f)
    (hret : bcfg.shouldTraceRet (f.entry + off) = some f₀.entry ↔ f.entry = f₀.entry)
    (ho : st.overrun bcfg = false) {t : CallEvent} (ht : IsReturn t.event (f.entry + off) 0) :
    Depth bcfg g.leave (st.returned bcfg (f.entry + off)) (log ++ [t]) b f₀ := by
  have hmem : b ∈ g.calls := by
    rw [hcalls]
    exact List.mem_cons_of_mem _ hb
  have hlt : b.id < a.id := hwf.older hcalls b hb
  have hcount : st.eventCount.toNat < Bpf.maxSampleEvents.toNat := by
    rw [Bpf.TraceState.overrun_eq hadaptive rfl hd.count_le, decide_eq_false_iff_not] at ho
    exact lt_of_le_of_ne hd.count_le ho
  have hsucc : (st.eventCount + 1).toNat = st.eventCount.toNat + 1 :=
    Bpf.TraceState.succ_eventCount rfl hcount
  have hat : st.atRootRet bcfg (f.entry + off) = decide (f.entry = f₀.entry) := by
    rw [Bpf.TraceState.atRootRet, ho, hadaptive, hd.rootIp]
    by_cases heq : f.entry = f₀.entry
    · rw [hret.mpr heq, decide_eq_true heq]
      simp
    · have hne := mt hret.mp heq
      simp [hne, heq]
  have hdepth : (st.returned bcfg (f.entry + off)).rootDepth.toNat =
      openCalls calls b.id f₀.entry := by
    have hopen := hd.depth
    rw [hcalls, openCalls_cons (Nat.le_of_lt hlt) hf] at hopen
    simp only [Bpf.TraceState.returned, hat]
    by_cases heq : f.entry = f₀.entry
    · have hdeep := (hd.root_returns hwf hcalls hmem hbf hf).2 (Nat.ne_of_gt hlt) heq
      have hone : (1 : UInt32) < st.rootDepth := UInt32.lt_iff_toNat_lt.mpr hdeep
      rw [if_pos heq] at hopen
      rw [decide_eq_true heq, decide_eq_true hone, Bool.true_and, if_pos rfl,
        UInt32.toNat_sub_of_le _ _ (UInt32.le_of_lt hone), hopen]
      rfl
    · rw [if_neg heq] at hopen
      rw [decide_eq_false heq, Bool.false_and, if_neg Bool.false_ne_true, hopen, Nat.add_zero]
  refine ⟨?_, ?_, hd.rootIp, hd.wanted, ?_, ?_, ?_⟩
  · unfold LastHit
    rw [Goroutine.leave_lastEntry hcalls hf]
    rfl
  · rw [rootOf_append, ht.traceFlags, if_neg (by decide)]
    exact hd.root
  · rw [hdepth, Goroutine.leave_calls, hcalls]
    rfl
  · rw [hdepth]
    have hopen := hd.depth
    rw [hcalls, openCalls_cons (Nat.le_of_lt hlt) hf] at hopen
    change _ ≤ (st.eventCount + 1).toNat
    have hle := hd.depth_le
    omega
  · change (st.eventCount + 1).toNat ≤ _
    omega

/-- A call that returns ends the sample exactly if it started it. -/
theorem Depth.ends_iff {st : Bpf.TraceState} {b : Activation} {f₀ : TracedFunc} {off : UInt64}
    (hd : Depth bcfg g st log b f₀) (hadaptive : bcfg.adaptiveSampling = true)
    (hwf : g.WellFormed fns) (hcalls : g.calls = a :: calls) (hb : b ∈ g.calls)
    (hbf : b.fn = some f₀) (hf : a.fn = some f)
    (hret : bcfg.shouldTraceRet (f.entry + off) = some f₀.entry ↔ f.entry = f₀.entry)
    (ho : st.overrun bcfg = false) :
    st.ends bcfg (f.entry + off) = true ↔ a.id = b.id := by
  obtain ⟨hroot, hother⟩ := hd.root_returns hwf hcalls hb hbf hf
  have hends : st.ends bcfg (f.entry + off) = true ↔
      f.entry = f₀.entry ∧ st.rootDepth.toNat ≤ 1 := by
    simp only [Bpf.TraceState.ends, Bpf.TraceState.atRootRet, ho, hadaptive, hd.rootIp,
      Bool.not_false, Bool.true_and, Bool.and_eq_true, beq_iff_eq, decide_eq_true_eq, hret,
      UInt32.le_iff_toNat_le]
    rfl
  rw [hends]
  constructor
  · rintro ⟨hentry, hle⟩
    by_contra hne
    exact absurd (hother hne hentry) (Nat.not_lt.mpr hle)
  · intro hid
    obtain ⟨rfl, hone⟩ := hroot hid
    exact ⟨rfl, Nat.le_of_eq hone⟩

/-- An event of a return continues the sample, or ends it. -/
theorem Sampling.leave {goexit : UInt64} {state state' : Option Bpf.TraceState} {t : CallEvent}
    {off : UInt64} (hparse : cfg.uprobes = parse goexit fns) (hatt : Findable bcfg cfg)
    (hwf : g.WellFormed fns) (hcalls : g.calls = a :: calls) (hf : a.fn = some f)
    (hoff : off ∈ f.rets) (hs : Sampling bcfg g log state sample stack) (hid : t.id = a.id)
    (he : ReturnEffect bcfg (f.entry + off) state state' (some t.event)) :
    ∃ stack', Sampling bcfg g.leave (log ++ [t]) state' (extendSample sample t) stack' ∧
      Recording cfg t sample stack (extendSample sample t) stack' ∧
      (bcfg.adaptiveSampling = true → (t.event.traceFlags = Bpf.traceEnd ↔
        rootOf log = some t.id ∧ t.event.traceFlags ≠ Bpf.traceAbort)) := by
  have hprobed : f ∈ probed fns :=
    hwf.probed a (by rw [hcalls]; exact List.mem_cons_self) f hf
  have hadaptive : cfg.adaptive = bcfg.adaptiveSampling :=
    (Bpf.load_ok hatt.loaded).adaptiveSampling.symm
  have hget := getUprobe_ret hparse hatt hprobed hoff
  cases hs with
  | idle hstate =>
    cases he with
    | ret ho hends he =>
      have ha : bcfg.adaptiveSampling = false :=
        Bool.eq_false_iff.mpr fun ha => Option.some_ne_none _ (hstate ha)
      rw [extendSample_orphan he.location]
      refine ⟨[], .idle fun h => ?_, .orphan (hadaptive.trans ha) he.location, fun h => ?_⟩
      · rw [ha] at h
        cases h
      · rw [ha] at h
        cases h
    | ended hends he =>
      have ha := Bpf.TraceState.adaptive_of_ends hends
      cases hstate ha
    | abort ho he =>
      have ha := Bpf.TraceState.adaptive_of_overrun ho
      cases hstate ha
  | @live st root ts b f₀ hb hbid hbf hbelow hlast hdepth =>
    have hold := hwf.older hcalls
    have hle : root.id ≤ a.id := by
      rw [← hbid]
      exact hwf.id_le hcalls hb
    obtain ⟨last, hl⟩ := Option.isSome_iff_exists.mp
      (List.getLast?_isSome.mpr (List.cons_ne_nil root ts))
    have hret : bcfg.adaptiveSampling = true →
        (bcfg.shouldTraceRet (f.entry + off) = some f₀.entry ↔ f.entry = f₀.entry) := by
      intro ha
      rw [shouldTraceRet_iff hparse hatt ha hprobed hoff]
      exact ⟨fun h => h.2.symm, fun h => ⟨h ▸ (hdepth ha).wanted, h.symm⟩⟩
    have hstack : openStack g.calls root.id =
        (t.id, (f.retProbe off).address - (f.retProbe off).relOffset) ::
          openStack calls root.id := by
      rw [hcalls, openStack_cons hle hf, retProbe_entry, hid]
    have hempty : root.id = a.id → openStack calls root.id = [] := fun h =>
      openStack_old (h ▸ hold)
    rw [hstack]
    cases he with
    | ret ho hends he =>
      have hp : cfg.getUprobe t.event.ip = some (f.retProbe off) := by rw [he.ip, hget]
      have hrep := repeats_return (hlast last hl) he
      rw [extendSample_return he.location (by rw [he.traceFlags]; decide)]
      by_cases hroot : root.id = t.id
      · have ha : bcfg.adaptiveSampling = false := by
          refine Bool.eq_false_iff.mpr fun ha => ?_
          have hyes := ((hdepth ha).ends_iff ha hwf hcalls hb hbf hf (hret ha) ho).mpr
            (by rw [hbid, hroot, hid])
          rw [hends] at hyes
          cases hyes
        rw [if_pos hroot, hempty (hroot.trans hid)]
        refine ⟨[], .idle fun h => ?_, .close hp he.location ?_ hl hrep, fun h => ?_⟩
        · rw [ha] at h
          cases h
        · rw [he.traceFlags, hadaptive, ha]
          rfl
        · rw [ha] at h
          cases h
      · have hne : a.id ≠ b.id := by
          rw [← hid, hbid]
          exact Ne.symm hroot
        have hbmem : b ∈ calls := by
          rw [hcalls] at hb
          rcases List.mem_cons.mp hb with heq | hb
          · exact absurd (congrArg Activation.id heq).symm hne
          · exact hb
        have hleave : g.leave.calls = calls := by rw [Goroutine.leave_calls, hcalls]; rfl
        rw [if_neg hroot]
        refine ⟨openStack calls root.id, ?_, ?_, fun ha => ?_⟩
        · rw [← hleave]
          refine .append (by rw [hleave]; exact hbmem) hbid hbf (fun u hu => ?_) ?_
            (lastEvent_return hcalls hf he) fun ha => ?_
          · rw [Goroutine.leave_next]
            exact hbelow u hu
          · rw [Goroutine.leave_next, hid]
            exact hwf.below a (by rw [hcalls]; exact List.mem_cons_self)
          · exact (hdepth ha).leave ha hwf hcalls hbmem hbf hf (hret ha) ho he
        · exact .ret hp he.location he.traceFlags hl hrep
            (openStack_ne hbmem (Nat.le_of_eq hbid.symm) hbf)
        · rw [he.traceFlags, (hdepth ha).root, hid]
          refine ⟨fun h => absurd h (by decide), fun h => ?_⟩
          exact absurd (Option.some.inj h.1).symm hne
    | ended hends he =>
      have ha := Bpf.TraceState.adaptive_of_ends hends
      have ho := Bpf.TraceState.overrun_of_ends hends
      have hab := ((hdepth ha).ends_iff ha hwf hcalls hb hbf hf (hret ha) ho).mp hends
      have hroot : root.id = t.id := by rw [hid, hab, hbid]
      have hp : cfg.getUprobe t.event.ip = some (f.retProbe off) := by rw [he.ip, hget]
      have hrep := repeats_return (hlast last hl) he
      rw [extendSample_return he.location (by rw [he.traceFlags]; decide), if_pos hroot,
        hempty (hroot.trans hid)]
      refine ⟨[], .idle fun _ => rfl, .close hp he.location ?_ hl hrep, fun _ => ?_⟩
      · rw [he.traceFlags, hadaptive, ha]
        rfl
      · rw [he.traceFlags, (hdepth ha).root, hid, hab]
        exact ⟨fun _ => ⟨rfl, by decide⟩, fun _ => rfl⟩
    | abort ho he =>
      have ha := Bpf.TraceState.adaptive_of_overrun ho
      rw [extendSample_abort he.traceFlags]
      have hp : cfg.getUprobe t.event.ip = some (f.retProbe off) := by rw [he.ip, hget]
      refine ⟨[], .idle fun _ => rfl, .abort (hadaptive.trans ha) hp ?_ he.traceFlags,
        fun _ => ?_⟩
      · rw [he.location]
        decide
      · rw [he.traceFlags]
        exact ⟨fun h => absurd h (by decide), fun h => absurd rfl h.2⟩

end

/-! ## Every execution -/

/-- The queue takes the event of the step, if there is one. -/
def Step.Lossless : Step → Prop
  | .other _ => True
  | .call _ _ h => h.pushOk = true
  | .grow _ h => h.pushOk = true
  | .ret _ h => h.pushOk = true

theorem pushOk_of_action {k : GoidKey} {g : Goroutine} {x : Step} (h : x.Lossless) {id : Nat}
    {a : Bpf.Action} (ha : g.action k x = some (id, a)) : a.pushOk = true := by
  have hent : ∀ {g : Goroutine} {hit : Bpf.Hit}, hit.pushOk = true →
      g.entryAction k hit = some (id, a) → a.pushOk = true := by
    intro g hit hpush haction
    unfold Goroutine.entryAction at haction
    split at haction
    · cases haction
    · obtain ⟨f, -, hf⟩ := Option.map_eq_some_iff.mp haction
      cases hf
      exact hpush
  cases x with
  | other _ => cases ha
  | call fn bp hit => exact hent h ha
  | grow shift hit => exact hent h ha
  | ret off hit =>
    replace ha : g.retAction k off hit = some (id, a) := ha
    unfold Goroutine.retAction at ha
    split at ha
    · cases ha
    · obtain ⟨f, -, hf⟩ := Option.map_eq_some_iff.mp ha
      cases hf
      exact h

/-- The queue takes every event of steps that lose none. -/
theorem pushed_step {bcfg : Bpf.Config} {k : GoidKey} {s : Execution} {x : Step}
    (hs : ∀ t ∈ s.log, t.pushed = true) (hx : x.Lossless) :
    ∀ t ∈ (s.step bcfg k x).log, t.pushed = true := by
  intro t ht
  rcases Execution.mem_step_log ht with ht | ⟨-, a, ha, hpushed⟩
  · exact hs t ht
  · exact hpushed.trans (pushOk_of_action hx ha)

/-- `TRACE_END` is set exactly as the call returns that started the sample, unless the sample is
aborted instead. -/
def EndsWithRoot (log : List CallEvent) : Prop :=
  ∀ before t, before ++ [t] <+: log → (t.event.traceFlags = Bpf.traceEnd ↔
    t.event.location = Bpf.retPoint ∧ rootOf before = some t.id ∧
      t.event.traceFlags ≠ Bpf.traceAbort)

theorem EndsWithRoot.append {log : List CallEvent} (h : EndsWithRoot log) {t : CallEvent}
    (ht : t.event.traceFlags = Bpf.traceEnd ↔ t.event.location = Bpf.retPoint ∧
      rootOf log = some t.id ∧ t.event.traceFlags ≠ Bpf.traceAbort) :
    EndsWithRoot (log ++ [t]) := by
  intro before u hpre
  rcases List.prefix_concat_iff.mp hpre with heq | hpre
  · obtain ⟨rfl, hlast⟩ := List.append_inj' heq rfl
    obtain rfl := List.head_eq_of_cons_eq hlast
    exact ht
  · exact h before u hpre

/-- What holds of an execution: the calls of the open sample are recorded one by one, and the
kernel knows how deep the root function is. -/
structure Reconstructed (bcfg : Bpf.Config) (cfg : EventManager.Config) (fns : List TracedFunc)
    (k : GoidKey) (s : Execution) : Prop where
  wf : s.goroutine.WellFormed fns
  recorded : ∃ stack, Sampling bcfg s.goroutine s.log (s.kernel.shouldTraceGoid k)
      (sampleOf s.log) stack ∧ Recorded cfg s.log (sampleOf s.log) stack
  ends : bcfg.adaptiveSampling = true → EndsWithRoot s.log

section

variable {bcfg : Bpf.Config} {cfg : EventManager.Config} {goexit : UInt64}
  {fns : List TracedFunc} {k : GoidKey} {s : Execution} {g' : Goroutine} {kernel : Bpf.Maps}

/-- A step without an event that leaves the trace state alone. -/
theorem Reconstructed.silent (h : Reconstructed bcfg cfg fns k s) (hwf : g'.WellFormed fns)
    (hstate : kernel.shouldTraceGoid k = s.kernel.shouldTraceGoid k)
    (hquiet : s.kernel.shouldTraceGoid k = none ∨ Quiet s.goroutine g') :
    Reconstructed bcfg cfg fns k { goroutine := g', kernel := kernel, log := s.log } := by
  obtain ⟨stack, hs, hrecorded⟩ := h.recorded
  refine ⟨hwf, ⟨stack, ?_, hrecorded⟩, h.ends⟩
  change Sampling bcfg g' s.log (kernel.shouldTraceGoid k) (sampleOf s.log) stack
  rw [hstate]
  rcases hquiet with hnone | hquiet
  · rw [hnone] at hs ⊢
    generalize sampleOf s.log = sample at hs ⊢
    cases hs with
    | idle _ => exact .idle fun _ => rfl
  · exact hs.quiet hquiet

/-- A step with an event. -/
theorem Reconstructed.event (h : Reconstructed bcfg cfg fns k s) (hwf : g'.WellFormed fns)
    {t : CallEvent} (hnext : ∀ stack, Sampling bcfg s.goroutine s.log (s.kernel.shouldTraceGoid k)
        (sampleOf s.log) stack →
      ∃ stack', Sampling bcfg g' (s.log ++ [t]) (kernel.shouldTraceGoid k)
          (extendSample (sampleOf s.log) t) stack' ∧
        Recording cfg t (sampleOf s.log) stack (extendSample (sampleOf s.log) t) stack' ∧
        (bcfg.adaptiveSampling = true → (t.event.traceFlags = Bpf.traceEnd ↔
          t.event.location = Bpf.retPoint ∧ rootOf s.log = some t.id ∧
            t.event.traceFlags ≠ Bpf.traceAbort))) :
    Reconstructed bcfg cfg fns k { goroutine := g', kernel := kernel, log := s.log ++ [t] } := by
  obtain ⟨stack, hs, hrecorded⟩ := h.recorded
  obtain ⟨stack', hs', ht, hends⟩ := hnext stack hs
  refine ⟨hwf, ⟨stack', ?_, ?_⟩, fun ha => (h.ends ha).append (hends ha)⟩
  · rw [← sampleOf_append] at hs'
    exact hs'
  · change Recorded cfg (s.log ++ [t]) (sampleOf (s.log ++ [t])) stack'
    rw [sampleOf_append]
    exact .snoc hrecorded ht

/-- No entry ends a sample. -/
theorem entry_no_end {ip bp callerBp : UInt64} {st st' : Option Bpf.TraceState} {e : Bpf.Event}
    (h : EntryEffect bcfg ip bp callerBp st st' (some e)) :
    e.location = Bpf.entPoint ∧ e.traceFlags ≠ Bpf.traceEnd := by
  cases h with
  | start he _ =>
    refine ⟨he.location, ?_⟩
    rw [he.traceFlags, startFlag]
    split <;> decide
  | entry _ he =>
    refine ⟨he.location, ?_⟩
    rw [he.traceFlags]
    decide
  | abort _ he =>
    refine ⟨he.location, ?_⟩
    rw [he.traceFlags]
    decide

theorem Reconstructed.entry (hparse : cfg.uprobes = parse goexit fns) (hatt : Findable bcfg cfg)
    (h : Reconstructed bcfg cfg fns k s) (hwf : g'.WellFormed fns) {a : Activation}
    {calls : List Activation} {f : TracedFunc} {again : Bool}
    (henters : Enters s.goroutine g' a calls f again)
    (htaken : s.kernel.shouldTraceGoid k ≠ none →
      takenForLast s.goroutine f.entry (frameOf calls) = again)
    {hit : Bpf.Hit} {r : Bpf.Maps × Option Bpf.Event} (pushed : Bool)
    (hr : Bpf.step bcfg s.kernel (.ent (entryHit hit k f.entry a.bp (frameOf calls))) = r) :
    Reconstructed bcfg cfg fns k
      { goroutine := g', kernel := r.1
        log := s.log ++ Execution.attempted k a.id pushed r.2 } := by
  have hf : f ∈ probed fns :=
    hwf.probed a (by rw [henters.calls]; exact List.mem_cons_self) f henters.fn
  have heffect := entry_effect bcfg s.kernel hit k f.entry a.bp (frameOf calls)
  rw [hr] at heffect
  unfold Execution.attempted
  generalize r.2.filter (fun e => e.key = k) = attempt at heffect ⊢
  cases attempt with
  | none =>
    have hsame : r.1.shouldTraceGoid k = s.kernel.shouldTraceGoid k ∧
        s.kernel.shouldTraceGoid k = none := by
      generalize r.1.shouldTraceGoid k = st' at heffect
      generalize s.kernel.shouldTraceGoid k = st at heffect
      cases heffect with
      | silent => exact ⟨rfl, rfl⟩
    rw [show ((none : Option Bpf.Event).map fun e => (⟨a.id, e, pushed⟩ : CallEvent)).toList = []
      from rfl, List.append_nil]
    exact h.silent hwf hsame.1 (.inl hsame.2)
  | some e =>
    refine h.event hwf fun stack hs => ?_
    obtain ⟨stack', hs', ht⟩ := hs.enter (t := ⟨a.id, e, pushed⟩)
      (Bpf.load_ok hatt.loaded).adaptiveSampling.symm (getUprobe_entry hparse hatt hf)
      (entry_ne_zero hparse hatt hf) hwf henters htaken rfl heffect
    refine ⟨stack', hs', ht, fun _ => ?_⟩
    obtain ⟨hloc, hflags⟩ := entry_no_end heffect
    refine ⟨fun h => absurd h hflags, fun h => ?_⟩
    rw [hloc] at h
    exact absurd h.1 (by decide)

theorem Reconstructed.ret (hparse : cfg.uprobes = parse goexit fns) (hatt : Findable bcfg cfg)
    (h : Reconstructed bcfg cfg fns k s) {a : Activation} {calls : List Activation}
    {f : TracedFunc} {off : UInt64} (hcalls : s.goroutine.calls = a :: calls) (hf : a.fn = some f)
    (hoff : off ∈ f.rets) (hwf : s.goroutine.leave.WellFormed fns) {hit : Bpf.Hit}
    {r : Bpf.Maps × Option Bpf.Event} (pushed : Bool)
    (hr : Bpf.step bcfg s.kernel (.ret (retHit hit k (f.entry + off))) = r) :
    Reconstructed bcfg cfg fns k
      { goroutine := s.goroutine.leave, kernel := r.1
        log := s.log ++ Execution.attempted k a.id pushed r.2 } := by
  have heffect := return_effect bcfg s.kernel hit k (f.entry + off)
  rw [hr] at heffect
  unfold Execution.attempted
  generalize r.2.filter (fun e => e.key = k) = attempt at heffect ⊢
  cases attempt with
  | none =>
    have hsame : r.1.shouldTraceGoid k = s.kernel.shouldTraceGoid k ∧
        s.kernel.shouldTraceGoid k = none := by
      generalize r.1.shouldTraceGoid k = st' at heffect
      generalize s.kernel.shouldTraceGoid k = st at heffect
      cases heffect with
      | silent => exact ⟨rfl, rfl⟩
    rw [show ((none : Option Bpf.Event).map fun e => (⟨a.id, e, pushed⟩ : CallEvent)).toList = []
      from rfl, List.append_nil]
    exact h.silent hwf hsame.1 (.inl hsame.2)
  | some e =>
    refine h.event hwf fun stack hs => ?_
    obtain ⟨stack', hs', ht, hends⟩ := hs.leave (t := ⟨a.id, e, pushed⟩) hparse hatt h.wf hcalls hf
      hoff rfl heffect
    exact ⟨stack', hs', ht, fun ha =>
      (hends ha).trans ⟨fun h => ⟨heffect.location, h⟩, fun h => h.2⟩⟩

/-- A step beside the goroutine leaves its trace state alone. -/
theorem state_of_other (bcfg : Bpf.Config) (m : Bpf.Maps) {a : Bpf.Action}
    (h : a.goroutine ≠ some k) :
    (Bpf.step bcfg m a).1.shouldTraceGoid k = m.shouldTraceGoid k := by
  rw [Bpf.step_state]
  cases a with
  | ent hit => rw [Bpf.stepLocal, if_neg fun hk => h (congrArg some hk)]
  | ret hit => rw [Bpf.stepLocal, if_neg fun hk => h (congrArg some hk)]
  | goroutineExit hit => rw [Bpf.stepLocal, if_neg fun hk => h (congrArg some hk)]
  | setSampleDenominator d => rfl
  | setTypeRecipe t r => rfl

theorem Reconstructed.step (hparse : cfg.uprobes = parse goexit fns) (hatt : Findable bcfg cfg)
    (h : Reconstructed bcfg cfg fns k s) {x : Step} (hvalid : x.Valid fns k s.goroutine)
    (hdirect : s.kernel.shouldTraceGoid k ≠ none → x.Direct s.goroutine) :
    Reconstructed bcfg cfg fns k (s.step bcfg k x) := by
  have hwf := h.wf.step hvalid
  cases x with
  | other a =>
    have hstate := state_of_other bcfg s.kernel hvalid
    refine ⟨h.wf, ?_, h.ends⟩
    change ∃ stack, Sampling bcfg s.goroutine s.log
      ((Bpf.step bcfg s.kernel a).1.shouldTraceGoid k) (sampleOf s.log) stack ∧ _
    rw [hstate]
    exact h.recorded
  | call fn bp hit =>
    have haction := Goroutine.action_call k s.goroutine fn bp hit
    cases fn with
    | none =>
      rw [Execution.step_silent (fun _ => Step.noConfusion) haction]
      exact h.silent hwf rfl (.inr quiet_call)
    | some f =>
      rw [Execution.step_hit haction, pushOk_entryHit]
      exact h.entry hparse hatt hwf enters_call
        (fun hstate => direct_call (hdirect hstate)) _ rfl
  | grow shift hit =>
    obtain ⟨a, calls, hcalls, -⟩ := h.wf.entering hvalid.1
    have haction := Goroutine.action_grow (k := k) hcalls shift hit
    cases hf : a.fn with
    | none =>
      rw [hf] at haction
      rw [Execution.step_silent (fun _ => Step.noConfusion) haction]
      exact h.silent hwf rfl (.inr (quiet_grow hcalls hf))
    | some f =>
      rw [hf] at haction
      rw [Execution.step_hit haction, pushOk_entryHit]
      exact h.entry hparse hatt hwf (enters_grow hvalid hcalls hf)
        (fun _ => grown_entry h.wf hvalid hcalls hf) _ rfl
  | ret off hit =>
    obtain ⟨a, calls, hcalls, hoff⟩ := hvalid
    have haction := Goroutine.action_ret (k := k) hcalls off hit
    cases hf : a.fn with
    | none =>
      rw [hf] at haction
      rw [Execution.step_silent (fun _ => Step.noConfusion) haction]
      exact h.silent hwf rfl (.inr (quiet_ret hcalls hf))
    | some f =>
      rw [hf] at haction
      rw [Execution.step_hit haction, pushOk_retHit]
      exact h.ret hparse hatt hcalls hf (hoff f hf) hwf _ rfl

end

theorem reconstructed_fresh {bcfg : Bpf.Config} {cfg : EventManager.Config}
    {fns : List TracedFunc} {k : GoidKey} {g : Goroutine} (hg : g.Fresh fns) {m : Bpf.Maps}
    (hm : m.shouldTraceGoid k = none) :
    Reconstructed bcfg cfg fns k { goroutine := g, kernel := m } := by
  refine ⟨hg.toWellFormed, ⟨[], .idle fun _ => hm, .nil⟩, fun _ before t hpre => ?_⟩
  exact absurd (List.prefix_nil.mp hpre) (by simp)

/-- The kernel's depth is the number of open calls of the root function that were made since
the sample started. -/
def DepthRight (k : GoidKey) (s : Execution) : Prop :=
  ∀ st, s.kernel.shouldTraceGoid k = some st → ∃ root ∈ s.goroutine.calls, ∃ f,
    root.fn = some f ∧ rootOf s.log = some root.id ∧
      st.rootDepth.toNat = openCalls s.goroutine.calls root.id f.entry

/-- The events that the queue took. -/
def taken (log : List CallEvent) : List Bpf.Event :=
  (log.filter CallEvent.pushed).map CallEvent.event

/-- The manager that got these events has one record for each call of the open sample and one
for each return, or it has nothing as its memory ran out. -/
def RecordsRight (cfg : EventManager.Config) (k : GoidKey) (log : List CallEvent) : Prop :=
  ∀ arrivals, EventManager.delivered k arrivals = taken log →
    ((EventManager.handleAll cfg {} arrivals).1.events k).map EventManager.Event.goftraceEvent =
        oneEach (sampleOf log) ∨
      cfg.adaptive = true ∧ RanOut (EventManager.handleAll cfg {} arrivals).1 ∧
        (EventManager.handleAll cfg {} arrivals).1.events k = []

/-- An execution without losses in which calls can be told from moved stacks is reconstructed
step by step: the depth of the root function, the end of its sample, and the records. -/
theorem calls_reconstructed {bcfg : Bpf.Config} {cfg : EventManager.Config} {goexit : UInt64}
    {fns : List TracedFunc} (hatt : Attached bcfg cfg goexit fns)
    (hapart : Apart cfg.symbols fns) (k : GoidKey) {g : Goroutine} (hg : g.Fresh fns) {m : Bpf.Maps}
    (hm : m.shouldTraceGoid k = none) (steps : List Step)
    (h : Execution.Along bcfg k
      (fun s x => x.Valid fns k s.goroutine ∧ x.Lossless ∧
        (s.kernel.shouldTraceGoid k ≠ none → x.Direct s.goroutine))
      { goroutine := g, kernel := m } steps) :
    let s := Execution.run bcfg k { goroutine := g, kernel := m } steps
    (bcfg.adaptiveSampling = true → DepthRight k s ∧ EndsWithRoot s.log) ∧
      RecordsRight cfg k s.log := by
  have hloc := hatt.findable hapart
  have hinit : Reconstructed bcfg cfg fns k { goroutine := g, kernel := m } ∧
      ∀ t ∈ ([] : List CallEvent), t.pushed = true :=
    ⟨reconstructed_fresh hg hm, fun t ht => absurd ht List.not_mem_nil⟩
  have hstep : ∀ (s : Execution) (x : Step),
      (Reconstructed bcfg cfg fns k s ∧ ∀ t ∈ s.log, t.pushed = true) →
      (x.Valid fns k s.goroutine ∧ x.Lossless ∧
        (s.kernel.shouldTraceGoid k ≠ none → x.Direct s.goroutine)) →
      Reconstructed bcfg cfg fns k (s.step bcfg k x) ∧
        ∀ t ∈ (s.step bcfg k x).log, t.pushed = true := by
    intro s x ⟨hs, hpushed⟩ ⟨hvalid, hlossless, hdirect⟩
    exact ⟨hs.step hatt.parsed hloc hvalid hdirect, pushed_step hpushed hlossless⟩
  intro s
  obtain ⟨hs, hpushed⟩ : Reconstructed bcfg cfg fns k s ∧ ∀ t ∈ s.log, t.pushed = true :=
    Execution.run_induction hstep steps hinit h
  obtain ⟨stack, hsampling, hrecorded⟩ := hs.recorded
  refine ⟨fun ha => ⟨fun st hst => ?_, hs.ends ha⟩, fun arrivals harrivals => ?_⟩
  · rw [hst] at hsampling
    generalize sampleOf s.log = sample at hsampling
    cases hsampling with
    | idle hnone => cases hnone ha
    | live hmem _ hf _ _ hdepth =>
      exact ⟨_, hmem, _, hf, (hdepth ha).root, (hdepth ha).depth⟩
  · have htaken : taken s.log = s.log.map CallEvent.event := by
      rw [taken, List.filter_eq_self.mpr hpushed]
    rcases retains_delivered cfg arrivals hrecorded (harrivals.trans htaken) with
      hretains | ⟨ha, hout, b, hb⟩
    · exact .inl hretains.events
    · exact .inr ⟨ha, hout, congrArg View.events hb⟩

/-! ## Recursion -/

theorem fresh_empty (fns : List TracedFunc) : Goroutine.Fresh fns {} where
  ids := .nil
  below a ha := by cases ha
  frames := .nil
  frame_ne a ha := by cases ha
  probed a ha := by cases ha
  entering h := by cases h
  lastEntry := rfl

/-- The goroutine of the hits. -/
def treeKey : GoidKey := { pid := 1, goid := 1 }

/-- `R` calls itself, the stack moves, and the inner call calls `A`; all of them return. -/
def recurses : List Step :=
  [.call treeFns[0]? 4096 (Bpf.sampleHit 0), .call treeFns[0]? 4000 (Bpf.sampleHit 0),
    .grow (· + 65536) (Bpf.sampleHit 0), .call treeFns[1]? 69440 (Bpf.sampleHit 0),
    .ret 15 (Bpf.sampleHit 0), .ret 15 (Bpf.sampleHit 0), .ret 15 (Bpf.sampleHit 0)]

theorem probed_tree (i : Nat) : ∀ f ∈ treeFns[i]?, f ∈ probed treeFns := by
  intro f hf
  rcases List.mem_cons.mp (List.mem_of_getElem? hf) with rfl | hmem
  · exact List.mem_cons_self
  · rw [List.mem_singleton.mp hmem]
    exact List.mem_cons_of_mem _ List.mem_cons_self

theorem rets_tree (i : Nat) : ∀ f ∈ treeFns[i]?, (15 : UInt64) ∈ f.rets := by
  intro f hf
  rcases List.mem_cons.mp (List.mem_of_getElem? hf) with rfl | hmem
  · exact List.mem_cons_self
  · rw [List.mem_singleton.mp hmem]
    exact List.mem_cons_self

theorem calls_reconstructed_recursive :
    let s := Execution.run treeKernel treeKey {} recurses
    (treeKernel.adaptiveSampling = true → DepthRight treeKey s ∧ EndsWithRoot s.log) ∧
      RecordsRight treeConfig treeKey s.log := by
  refine calls_reconstructed attached_tree apart_tree treeKey (fresh_empty treeFns) rfl recurses ?_
  refine ⟨⟨⟨probed_tree 0, by decide, by decide⟩, rfl, ?_⟩,
    ⟨⟨probed_tree 0, by decide, by decide⟩, rfl, ?_⟩,
    ⟨⟨rfl, by decide, by decide, by decide⟩, rfl, ?_⟩,
    ⟨⟨probed_tree 1, by decide, by decide⟩, rfl, ?_⟩,
    ⟨⟨_, _, rfl, rets_tree 1⟩, rfl, ?_⟩,
    ⟨⟨_, _, rfl, rets_tree 0⟩, rfl, ?_⟩,
    ⟨⟨_, _, rfl, rets_tree 0⟩, rfl, ?_⟩, trivial⟩
  · exact fun hstate => absurd rfl hstate
  · intro _ bp hlast
    cases hlast
    rfl
  · exact fun _ => trivial
  · intro _ bp hlast
    exact absurd (congrArg Prod.fst (Option.some.inj hlast)) (by decide : (16 : UInt64) ≠ 48)
  · exact fun _ => trivial
  · exact fun _ => trivial
  · exact fun _ => trivial

/-- `R` calls a function without probes, which calls `R`. -/
def callsBack : List Step :=
  [.call treeFns[0]? 4096 (Bpf.sampleHit 0), .call none 4000 (Bpf.sampleHit 0),
    .call treeFns[0]? 3904 (Bpf.sampleHit 0)]

/-- The inner call of `R` returns, then the outer one with the function between them. -/
def returns : List Step :=
  [.ret 15 (Bpf.sampleHit 0), .ret 0 (Bpf.sampleHit 0), .ret 15 (Bpf.sampleHit 0)]

theorem valid_callsBack :
    Execution.Along treeKernel treeKey
      (fun s x => x.Valid treeFns treeKey s.goroutine ∧ x.Lossless) {} (callsBack ++ returns) := by
  refine ⟨⟨⟨probed_tree 0, by decide, by decide⟩, rfl⟩,
    ⟨⟨fun f hf => absurd hf (Option.not_mem_none f), by decide, by decide⟩, rfl⟩,
    ⟨⟨probed_tree 0, by decide, by decide⟩, rfl⟩,
    ⟨⟨_, _, rfl, rets_tree 0⟩, rfl⟩,
    ⟨⟨_, _, rfl, fun f hf => absurd hf (Option.not_mem_none f)⟩, rfl⟩,
    ⟨⟨_, _, rfl, rets_tree 0⟩, rfl⟩, trivial⟩

/-- The inner call of `R` is taken for the outer one: the depth stays at 1, its return ends the
sample, and one record is left of the two. -/
theorem recursion_merged :
    Execution.Along treeKernel treeKey
        (fun s x => x.Valid treeFns treeKey s.goroutine ∧ x.Lossless) {} (callsBack ++ returns) ∧
      ¬ DepthRight treeKey (Execution.run treeKernel treeKey {} callsBack) ∧
      ¬ EndsWithRoot (Execution.run treeKernel treeKey {} (callsBack ++ returns)).log ∧
      ¬ RecordsRight treeConfig treeKey (Execution.run treeKernel treeKey {} callsBack).log := by
  refine ⟨valid_callsBack, fun h => ?_, fun h => ?_, fun h => ?_⟩
  · obtain ⟨root, hmem, f, hf, hid, hdepth⟩ := h _ rfl
    have hroot : root.id = 0 := (Option.some.inj hid).symm
    have hall : ∀ a ∈ (Execution.run treeKernel treeKey {} callsBack).goroutine.calls,
        ∀ f ∈ a.fn, f.entry = 16 := by decide
    rw [hroot, hall root hmem f hf] at hdepth
    exact absurd hdepth (by decide)
  · have hreturn := h (Execution.run treeKernel treeKey {} callsBack).log _ List.prefix_rfl
    exact absurd (hreturn.mp rfl).2.1 (by decide)
  · have hrecords := h (EventManager.sampleArrivals
      (taken (Execution.run treeKernel treeKey {} callsBack).log)) rfl
    rcases hrecords with heq | ⟨-, hout, -⟩
    · exact absurd (congrArg List.length heq) (by decide)
    · exact hout.elim (by decide) (by decide)

end GoFtrace.Tracing
