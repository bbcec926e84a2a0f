import GoFtrace.Elf.Cache
import GoFtrace.Elf.Resolve
import GoFtrace.EventManager.Aggregation

/-!
# Printing a stack

`PrintStack` of `internal/eventmanager/print.go`: the lines that it prints for the events of
a goroutine, up to an error or a panic of what it calls. A line is kept in its parts.

* `printStack_tree`: the lines of nested calls are their tree, indented by depth, each call
  with the time between its two events.
* `printLoop_open`: the lines of a stack that is not finished, event by event.
-/

namespace GoFtrace.EventManager

open Lib Uprobe

/-! ## Lines -/

/-- A line of `PrintStack`, for an entry or for a return. -/
inductive Line where
  | entry (timeNs : UInt64) (indent : Nat) (funcname argString callChain lineInfo : String)
  | ret (timeNs elapsed : UInt64) (indent : Nat) (name : String) (offset : UInt64)
      (argString lineInfo : String)
  deriving DecidableEq, Repr

/-! ## The loop -/

section
variable {τ : Type}

/-- `SprintCallChain`. -/
def sprintCallChain (cfg : Config) (event : GoftraceEvent) : Elf.Result String :=
  if event.callerIp = 0 then .returned "" none
  else
    match Elf.resolveAddress cfg.symbols event.callerIp with
    | none => .returned "" (some (Elf.notFound event.callerIp))
    | some ([], _) => .panic
    | some (sym :: _, off) => .returned (sym.name ++ "+" ++ toString off) none

/-- `lineInfo` after `LineInfoForPc`: `?:?` on an error, `none` on a panic. -/
def lineInfo ( trimprefix : String) : Elf.Result (String × Int) → Option String
  | .returned _ (some _) => some "?:?"
  | .returned (filename, line) none =>
    some (trimPrefix (filename ++ ":" ++ toString line) trimprefix)
  | .panic => none

/-- The variables of `PrintStack`, the cache of the file and the lines printed so far. The
head of `startTimeStack` is its last element. -/
structure PrintState (τ : Type) where
  cache : Elf.Cache τ
  indent : Nat := 0
  startTimeStack : List UInt64 := []
  lines : List Line := []

/-- The case of an entry. -/
def printEntry (cfg : Config) ( trimprefix : String) (f : Elf.File τ) (s : PrintState τ)
    (e : Event) : Elf.Result Unit × PrintState τ :=
  let event := e.goftraceEvent
  let s := { s with startTimeStack := event.timeNs :: s.startTimeStack }
  match sprintCallChain cfg event with
  | .panic => (.panic, s)
  | .returned _ (some err) => (.returned () (some err), s)
  | .returned callChain none =>
    let (row, cache) := f.lineInfoForPc s.cache event.callerIp
    match lineInfo trimprefix row with
    | none => (.panic, { s with cache := cache })
    | some info =>
      let line := Line.entry event.timeNs s.indent e.uprobe.funcname e.argString callChain info
      (.returned () none,
        { s with cache := cache, indent := s.indent + 2, lines := s.lines ++ [line] })

/-- The case of a return, for what its address resolves to. -/
def printRet ( trimprefix : String) (f : Elf.File τ) (s : PrintState τ) (e : Event)
    (syms : List Elf.Symbol) (offset : UInt64) : Elf.Result Unit × PrintState τ :=
  let event := e.goftraceEvent
  if s.indent = 0 then (.returned () none, s)
  else
    let (row, cache) := f.lineInfoForPc s.cache event.ip
    match lineInfo trimprefix row, s.startTimeStack, syms with
    | some info, start :: startTimeStack, sym :: _ =>
      if s.indent < 2 then (.panic, { s with cache := cache })
      else
        let indent := s.indent - 2
        let line :=
          Line.ret event.timeNs (event.timeNs - start) indent sym.name offset e.argString info
        (.returned () none,
          { cache := cache, indent := indent, startTimeStack := startTimeStack
            lines := s.lines ++ [line] })
    | _, _, _ => (.panic, { s with cache := cache })

/-- One turn of the loop of `PrintStack`. -/
def printEvent (cfg : Config) ( trimprefix : String) (f : Elf.File τ) (s : PrintState τ)
    (e : Event) : Elf.Result Unit × PrintState τ :=
  match Elf.resolveAddress cfg.symbols e.goftraceEvent.ip with
  | none => (.returned () (some (Elf.notFound e.goftraceEvent.ip)), s)
  | some (syms, offset) =>
    if e.goftraceEvent.location = Bpf.entPoint then printEntry cfg trimprefix f s e
    else if e.goftraceEvent.location = Bpf.retPoint then printRet trimprefix f s e syms offset
    else (.returned () none, s)

/-- The loop of `PrintStack`. -/
def printLoop (cfg : Config) ( trimprefix : String) (f : Elf.File τ) :
    PrintState τ → List Event → Elf.Result Unit × PrintState τ
  | s, [] => (.returned () none, s)
  | s, e :: events =>
    match printEvent cfg trimprefix f s e with
    | (.returned () none, s) => printLoop cfg trimprefix f s events
    | stopped => stopped

/-- `PrintStack`. -/
def printStack (cfg : Config) ( trimprefix : String) (f : Elf.File τ) (cache : Elf.Cache τ)
    (events : List Event) : Elf.Result Unit × PrintState τ :=
  printLoop cfg trimprefix f { cache := cache } events

end

/-! ## Nested calls -/

/-- The bracket of an event, whatever the function. -/
def Event.place (e : Event) : Token Unit :=
  if e.goftraceEvent.location = Bpf.entPoint then .opens ()
  else if e.goftraceEvent.location = Bpf.retPoint then .closes ()
  else .skip

/-- The bracket of a line, by its indentation. -/
def Line.token : Line → Token Nat
  | .entry _ indent _ _ _ _ => .opens indent
  | .ret _ _ indent _ _ _ _ => .closes indent

/-- What is looked up for the line of an event. -/
structure Site where
  name : String
  offset : UInt64
  callChain : String
  lineInfo : String

/-- The line of an entry at a depth. -/
def entryLine (depth : Nat) (x : Event × Site) : Line :=
  .entry x.1.goftraceEvent.timeNs (2 * depth) x.1.uprobe.funcname x.1.argString x.2.callChain
    x.2.lineInfo

/-- The line of the return from a call that started at a time. -/
def closingLine (e : Event) (start : UInt64) (depth : Nat) (site : Site) : Line :=
  .ret e.goftraceEvent.timeNs (e.goftraceEvent.timeNs - start) (2 * depth) site.name site.offset
    e.argString site.lineInfo

/-- The line of the return that closes an entry. -/
def retLine (depth : Nat) (o c : Event × Site) : Line :=
  closingLine c.1 o.1.goftraceEvent.timeNs depth c.2

/-- The printed tree of some calls. -/
def callTree (depth : Nat) (calls : Forest (Event × Site)) : List Line :=
  (calls.layout entryLine retLine depth).flatten

section
variable {τ : Type} {cfg : Config} { trimprefix : String} {f : Elf.File τ}

/-- What is looked up for an event is what the symbol table and the line table give. -/
structure LooksUp (cfg : Config) ( trimprefix : String) (f : Elf.File τ) (e : Event) (site : Site) :
    Prop where
  symbol : ∃ sym syms, sym.name = site.name ∧
    Elf.resolveAddress cfg.symbols e.goftraceEvent.ip = some (sym :: syms, site.offset)
  callChain : e.goftraceEvent.location = Bpf.entPoint →
    sprintCallChain cfg e.goftraceEvent = .returned site.callChain none
  lineInfo : ∃ cache, lineInfo trimprefix (f.lineInfoForPc cache
    (if e.goftraceEvent.location = Bpf.entPoint then e.goftraceEvent.callerIp
      else e.goftraceEvent.ip)).1 = some site.lineInfo

theorem Event.place_eq_opens {e : Event} (h : e.place = .opens ()) :
    e.goftraceEvent.location = Bpf.entPoint := by
  unfold place at h
  split at h
  · assumption
  · split at h <;> cases h

theorem Event.place_eq_closes {e : Event} (h : e.place = .closes ()) :
    e.goftraceEvent.location ≠ Bpf.entPoint ∧ e.goftraceEvent.location = Bpf.retPoint := by
  unfold place at h
  split at h
  · cases h
  · split at h
    · exact ⟨by assumption, by assumption⟩
    · cases h

/-- An address that resolves resolves to a symbol. -/
theorem resolved_ne_nil {symbols : List Elf.Symbol} {addr : UInt64} {syms : List Elf.Symbol}
    {offset : UInt64} (h : Elf.resolveAddress symbols addr = some (syms, offset)) :
    ∃ sym rest, syms = sym :: rest := by
  unfold Elf.resolveAddress at h
  split at h
  · cases h
  · dsimp only at h
    split at h
    · cases h
    · cases h
      exact ⟨_, _, rfl⟩

/-- The variables at a depth. -/
structure PrintState.AtDepth (s : PrintState τ) (depth : Nat) : Prop where
  indent : s.indent = 2 * depth
  times : s.startTimeStack.length = depth

/-- The address that the line of an event is looked up for. -/
def Event.linePc (e : Event) : UInt64 :=
  if e.goftraceEvent.location = Bpf.entPoint then e.goftraceEvent.callerIp
  else e.goftraceEvent.ip

/-- An address of the event does not resolve. -/
inductive Unprintable (cfg : Config) (e : Event) : String → Prop
  | ip (h : Elf.resolveAddress cfg.symbols e.goftraceEvent.ip = none) :
      Unprintable cfg e (Elf.notFound e.goftraceEvent.ip)
  | callerIp (hloc : e.goftraceEvent.location = Bpf.entPoint)
      (hne : e.goftraceEvent.callerIp ≠ 0)
      (h : Elf.resolveAddress cfg.symbols e.goftraceEvent.callerIp = none) :
      Unprintable cfg e (Elf.notFound e.goftraceEvent.callerIp)

/-- How the loop ends for some events: with `done`, with an error, or with a panic. -/
inductive Ends (cfg : Config) (f : Elf.File τ) (events : List Event) (done : PrintState τ → Prop) :
    Elf.Result Unit × PrintState τ → Prop
  | returned {s : PrintState τ} (h : done s) : Ends cfg f events done (.returned () none, s)
  | failed {e : Event} {err : String} {s : PrintState τ} (he : e ∈ events)
      (h : Unprintable cfg e err) : Ends cfg f events done (.returned () (some err), s)
  | panic {e : Event} {cache : Elf.Cache τ} {s : PrintState τ} (he : e ∈ events)
      (h : (f.lineInfoForPc cache e.linePc).1 = .panic) : Ends cfg f events done (.panic, s)

theorem sprintCallChain_cases (cfg : Config) (event : GoftraceEvent) :
    (∃ callChain, sprintCallChain cfg event = .returned callChain none) ∨
      event.callerIp ≠ 0 ∧ Elf.resolveAddress cfg.symbols event.callerIp = none ∧
        sprintCallChain cfg event = .returned "" (some (Elf.notFound event.callerIp)) := by
  unfold sprintCallChain
  by_cases hzero : event.callerIp = 0
  · exact .inl ⟨"", if_pos hzero⟩
  · rw [if_neg hzero]
    cases h : Elf.resolveAddress cfg.symbols event.callerIp with
    | none => exact .inr ⟨hzero, rfl, rfl⟩
    | some r =>
      obtain ⟨syms, off⟩ := r
      obtain ⟨sym, rest, rfl⟩ := resolved_ne_nil h
      exact .inl ⟨_, rfl⟩

theorem lineInfo_eq_none {r : Elf.Result (String × Int)} (h : lineInfo trimprefix r = none) :
    r = .panic := by
  unfold lineInfo at h
  split at h
  · cases h
  · cases h
  · rfl

/-- A turn of the loop for an entry. -/
theorem printEvent_opens {s : PrintState τ} {e : Event} {depth : Nat} (hs : s.AtDepth depth)
    (he : e.place = .opens ()) :
    Ends cfg f [e] (fun s' => ∃ site, LooksUp cfg trimprefix f e site ∧ s'.AtDepth (depth + 1) ∧
      s'.startTimeStack = e.goftraceEvent.timeNs :: s.startTimeStack ∧
      s'.lines = s.lines ++ [entryLine depth (e, site)]) (printEvent cfg trimprefix f s e) := by
  have hloc := Event.place_eq_opens he
  have hpc : e.linePc = e.goftraceEvent.callerIp := if_pos hloc
  unfold printEvent
  cases hip : Elf.resolveAddress cfg.symbols e.goftraceEvent.ip with
  | none => exact .failed (List.mem_singleton_self e) (.ip hip)
  | some r =>
    obtain ⟨syms, offset⟩ := r
    obtain ⟨sym, rest, rfl⟩ := resolved_ne_nil hip
    simp only [hloc, if_true, printEntry]
    rcases sprintCallChain_cases cfg e.goftraceEvent with ⟨callChain, hchain⟩ | ⟨hne, hnone, hchain⟩
    · rw [hchain]
      dsimp only
      cases hinfo : lineInfo trimprefix (f.lineInfoForPc s.cache e.goftraceEvent.callerIp).1 with
      | none =>
        exact .panic (List.mem_singleton_self e) (by rw [hpc]; exact lineInfo_eq_none hinfo)
      | some info =>
        refine .returned ⟨⟨sym.name, offset, callChain, info⟩,
          ⟨⟨sym, rest, rfl, hip⟩, fun _ => hchain, s.cache, ?_⟩, ⟨?_, ?_⟩, rfl, ?_⟩
        · rw [if_pos hloc]
          exact hinfo
        · exact congrArg (· + 2) hs.indent
        · exact congrArg (· + 1) hs.times
        · rw [hs.indent]
          rfl
    · rw [hchain]
      exact .failed (List.mem_singleton_self e) (.callerIp hloc hne hnone)

/-- A turn of the loop for the return that closes an entry. -/
theorem printEvent_closes {s : PrintState τ} {e : Event} {depth : Nat} {start : UInt64}
    {times : List UInt64} (hs : s.AtDepth (depth + 1)) (htimes : s.startTimeStack = start :: times)
    (he : e.place = .closes ()) :
    Ends cfg f [e] (fun s' => ∃ site, LooksUp cfg trimprefix f e site ∧ s'.AtDepth depth ∧
      s'.startTimeStack = times ∧ s'.lines = s.lines ++ [closingLine e start depth site])
      (printEvent cfg trimprefix f s e) := by
  obtain ⟨hent, hret⟩ := Event.place_eq_closes he
  have hpc : e.linePc = e.goftraceEvent.ip := if_neg hent
  unfold printEvent
  cases hip : Elf.resolveAddress cfg.symbols e.goftraceEvent.ip with
  | none => exact .failed (List.mem_singleton_self e) (.ip hip)
  | some r =>
    obtain ⟨syms, offset⟩ := r
    obtain ⟨sym, rest, rfl⟩ := resolved_ne_nil hip
    have hindent : s.indent = 2 * depth + 2 := hs.indent
    simp only [if_false, hret, if_true, printRet, hindent, Nat.add_eq_zero_iff,
      OfNat.ofNat_ne_zero, and_false, htimes]
    cases hinfo : lineInfo trimprefix (f.lineInfoForPc s.cache e.goftraceEvent.ip).1 with
    | none =>
      exact .panic (List.mem_singleton_self e) (by rw [hpc]; exact lineInfo_eq_none hinfo)
    | some info =>
      simp only [show ¬ 2 * depth + 2 < 2 by omega, if_false, Nat.add_sub_cancel]
      have hlength : times.length = depth := by
        have := hs.times
        rw [htimes] at this
        exact Nat.succ.inj this
      refine .returned ⟨⟨sym.name, offset, "", info⟩,
        ⟨⟨sym, rest, rfl, hip⟩, fun h => absurd h hent, s.cache, ?_⟩, ⟨rfl, hlength⟩, rfl, rfl⟩
      rw [if_neg hent]
      exact hinfo

/-- Other events print nothing. -/
theorem printEvent_skip (s : PrintState τ) {e : Event} (he : e.place = .skip) :
    Ends cfg f [e] (fun s' => s' = s) (printEvent cfg trimprefix f s e) := by
  unfold Event.place at he
  unfold printEvent
  cases hip : Elf.resolveAddress cfg.symbols e.goftraceEvent.ip with
  | none => exact .failed (List.mem_singleton_self e) (.ip hip)
  | some r =>
    split at he
    · cases he
    · split at he
      · cases he
      · rename_i hent hret
        simp only [hent, hret, if_false]
        exact .returned rfl

/-! ## The loop over some events -/

theorem Ends.mono {events events' : List Event} {done done' : PrintState τ → Prop}
    {r : Elf.Result Unit × PrintState τ} (h : Ends cfg f events done r)
    (hevents : ∀ e ∈ events, e ∈ events') (hdone : ∀ s, done s → done' s) :
    Ends cfg f events' done' r := by
  cases h with
  | returned h => exact .returned (hdone _ h)
  | failed he h => exact .failed (hevents _ he) h
  | panic he h => exact .panic (hevents _ he) h

/-- A turn and the rest of the loop. -/
theorem Ends.next {all : List Event} {e : Event} {events : List Event} {s : PrintState τ}
    {done done' : PrintState τ → Prop} (he : e ∈ all)
    (h : Ends cfg f [e] done (printEvent cfg trimprefix f s e))
    (hrest : ∀ s', done s' → Ends cfg f all done' (printLoop cfg trimprefix f s' events)) :
    Ends cfg f all done' (printLoop cfg trimprefix f s (e :: events)) := by
  rw [printLoop.eq_def]
  dsimp only
  generalize printEvent cfg trimprefix f s e = r at h ⊢
  cases h with
  | returned h => exact hrest _ h
  | failed he' h =>
    obtain rfl := List.mem_singleton.mp he'
    exact .failed he h
  | panic he' h =>
    obtain rfl := List.mem_singleton.mp he'
    exact .panic he h

theorem Ends.cons {e : Event} {events : List Event} {s : PrintState τ}
    {done done' : PrintState τ → Prop} (h : Ends cfg f [e] done (printEvent cfg trimprefix f s e))
    (hrest : ∀ s', done s' → Ends cfg f events done' (printLoop cfg trimprefix f s' events)) :
    Ends cfg f (e :: events) done' (printLoop cfg trimprefix f s (e :: events)) :=
  h.next List.mem_cons_self fun s' hs' =>
    (hrest s' hs').mono (fun _ => List.mem_cons_of_mem _) fun _ => id

theorem printLoop_append (s : PrintState τ) (xs ys : List Event) :
    printLoop cfg trimprefix f s (xs ++ ys) =
      match printLoop cfg trimprefix f s xs with
      | (.returned () none, s) => printLoop cfg trimprefix f s ys
      | stopped => stopped := by
  induction xs generalizing s with
  | nil => rfl
  | cons x xs ih =>
    rw [List.cons_append, printLoop.eq_def, printLoop.eq_def _ _ _ _ (x :: xs)]
    dsimp only
    split
    · exact ih _
    · rename_i hstop
      split
      · rename_i hok
        exact absurd hok (hstop _)
      · rfl

theorem Ends.append {xs ys : List Event} {s : PrintState τ} {done done' : PrintState τ → Prop}
    (h : Ends cfg f xs done (printLoop cfg trimprefix f s xs))
    (hrest : ∀ s', done s' → Ends cfg f ys done' (printLoop cfg trimprefix f s' ys)) :
    Ends cfg f (xs ++ ys) done' (printLoop cfg trimprefix f s (xs ++ ys)) := by
  rw [printLoop_append]
  generalize printLoop cfg trimprefix f s xs = r at h ⊢
  cases h with
  | returned h => exact (hrest _ h).mono (fun _ => List.mem_append_right _) fun _ => id
  | failed he h => exact .failed (List.mem_append_left _ he) h
  | panic he h => exact .panic (List.mem_append_left _ he) h

/-- The variables after some calls: the lines of their tree are added. -/
structure PrintsCalls (cfg : Config) ( trimprefix : String) (f : Elf.File τ) (depth : Nat)
    (calls : Forest Event) (s s' : PrintState τ) : Prop where
  atDepth : s'.AtDepth depth
  times : s'.startTimeStack = s.startTimeStack
  lines : ∃ sites : Forest (Event × Site), sites.map Prod.fst = calls ∧
    (∀ x ∈ sites.flatten, LooksUp cfg trimprefix f x.1 x.2) ∧
      s'.lines = s.lines ++ callTree depth sites

theorem printLoop_calls {calls : Forest Event} (hcalls : calls.Matched Event.place) {depth : Nat}
    {s : PrintState τ} (hs : s.AtDepth depth) :
    Ends cfg f calls.flatten (PrintsCalls cfg trimprefix f depth calls s)
      (printLoop cfg trimprefix f s calls.flatten) := by
  induction calls generalizing depth s with
  | nil => exact .returned ⟨hs, rfl, .nil, rfl, by simp [Forest.flatten], by
      simp [callTree, Forest.layout, Forest.flatten]⟩
  | node o kids c rest ihk ihr =>
    obtain ⟨⟨k, ho, hc⟩, hkids, hrest⟩ := hcalls
    refine (printEvent_opens hs ho).cons fun s₁ hopen => ?_
    obtain ⟨so, hso, hdepth₁, htimes₁, hlines₁⟩ := hopen
    refine (ihk hkids hdepth₁).append fun s₂ hkids₂ => ?_
    obtain ⟨fk, hfk, hlook₂, hlines₂⟩ := hkids₂.lines
    have htimes₂ : s₂.startTimeStack = o.goftraceEvent.timeNs :: s.startTimeStack := by
      rw [hkids₂.times, htimes₁]
    refine (printEvent_closes hkids₂.atDepth htimes₂ hc).cons fun s₃ hclose => ?_
    obtain ⟨sc, hsc, hdepth₃, htimes₃, hlines₃⟩ := hclose
    refine (ihr hrest hdepth₃).mono (fun _ => id) fun s₄ hrest₄ => ?_
    obtain ⟨fr, hfr, hlook₄, hlines₄⟩ := hrest₄.lines
    refine ⟨hrest₄.atDepth, hrest₄.times.trans htimes₃, .node (o, so) fk (c, sc) fr, ?_, ?_, ?_⟩
    · rw [Forest.map, hfk, hfr]
    · intro x hx
      rcases List.mem_cons.mp hx with rfl | hx
      · exact hso
      · rcases List.mem_append.mp hx with hx | hx
        · exact hlook₂ x hx
        · rcases List.mem_cons.mp hx with rfl | hx
          · exact hsc
          · exact hlook₄ x hx
    · rw [hlines₄, hlines₃, hlines₂, hlines₁]
      simp [callTree, Forest.layout, Forest.flatten, retLine]

/-- Events that print nothing may be left out. -/
theorem Ends.of_filter {all events : List Event} (hall : ∀ e ∈ events, e ∈ all)
    {s : PrintState τ} {done : PrintState τ → Prop}
    (h : Ends cfg f all done
      (printLoop cfg trimprefix f s (events.filter fun e => e.place ≠ .skip))) :
    Ends cfg f all done (printLoop cfg trimprefix f s events) := by
  induction events generalizing s with
  | nil => exact h
  | cons e events ih =>
    obtain ⟨he, hevents⟩ := List.forall_mem_cons.mp hall
    by_cases hskip : e.place = .skip
    · rw [List.filter_cons_of_neg (by simpa using hskip)] at h
      refine (printEvent_skip s hskip).next he fun s' hs' => ?_
      rw [hs']
      exact ih hevents h
    · rw [List.filter_cons_of_pos (by simpa using hskip), printLoop.eq_def] at h
      rw [printLoop.eq_def]
      dsimp only at h ⊢
      split at h
      · exact ih hevents h
      · exact h

/-- The place of an event is its bracket without the function. -/
theorem Event.place_eq_map (e : Event) : e.place = e.bracket.map fun _ => () := by
  unfold place bracket
  split
  · rfl
  · split <;> rfl

theorem Event.place_eq_skip {e : Event} : e.place = .skip ↔ e.bracket = .skip := by
  rw [place_eq_map]
  cases e.bracket with
  | skip => exact ⟨fun _ => rfl, fun _ => rfl⟩
  | opens k => exact ⟨nofun, nofun⟩
  | closes k => exact ⟨nofun, nofun⟩

/-- Events that close each other function by function have the calls that their places have. -/
theorem matched_bracket {events : List Event} {calls : Forest Event}
    (hcalls : calls.Matched Event.place)
    (hflat : calls.flatten = events.filter fun e => e.place ≠ .skip)
    (h : replay Event.bracket events [] = some []) : calls.Matched Event.bracket := by
  obtain ⟨own, hown, hflat'⟩ := exists_forest_of_replay h
  have hsame : own.flatten = calls.flatten := by
    rw [hflat, hflat']
    refine List.filter_congr fun e _ => ?_
    rw [decide_eq_decide, not_iff_not, Event.place_eq_skip]
  rw [← Forest.flatten_injective (hown.coarsen Event.place_eq_map) hcalls hsame]
  exact hown

/-- A finished stack: the events close each other, their lines are the tree of the calls, and
the indentation of the lines tells the tree. A return is written under the innermost entry that
is open, which is of its own function when the events close each other function by function. -/
structure PrintsTree (cfg : Config) ( trimprefix : String) (f : Elf.File τ) (events : List Event)
    (s : PrintState τ) : Prop where
  indent : s.indent = 0
  times : s.startTimeStack = []
  lines : ∃ sites : Forest (Event × Site), (sites.map Prod.fst).Matched Event.place ∧
    (replay Event.bracket events [] = some [] → (sites.map Prod.fst).Matched Event.bracket) ∧
    (sites.map Prod.fst).flatten = events.filter (fun e => e.place ≠ .skip) ∧
    (∀ x ∈ sites.flatten, LooksUp cfg trimprefix f x.1 x.2) ∧ s.lines = callTree 0 sites ∧
    ∀ lines : Forest Line, lines.Matched Line.token → lines.flatten = s.lines →
      lines = sites.layout entryLine retLine 0

/-- The indentation of a tree tells its calls. -/
theorem callTree_readBack {depth : Nat} {sites : Forest (Event × Site)} {lines : Forest Line}
    (h : lines.Matched Line.token) (hflat : lines.flatten = callTree depth sites) :
    lines = sites.layout entryLine retLine depth := by
  have hentry : ∀ d o, (entryLine d o).token = .opens (2 * d) := fun _ _ => rfl
  have hret : ∀ d o c, (retLine d o c).token = .closes (2 * d) := fun _ _ _ => rfl
  exact Forest.flatten_injective h (Forest.layout_matched hentry hret depth sites) hflat

theorem printStack_tree {events : List Event} (h : replay Event.place events [] = some [])
    (cache : Elf.Cache τ) :
    Ends cfg f events (PrintsTree cfg trimprefix f events)
      (printStack cfg trimprefix f cache events) := by
  obtain ⟨calls, hcalls, hflat⟩ := exists_forest_of_replay h
  have hloop : Ends cfg f calls.flatten (PrintsCalls cfg trimprefix f 0 calls { cache := cache })
      (printLoop cfg trimprefix f { cache := cache } calls.flatten) :=
    printLoop_calls hcalls ⟨rfl, rfl⟩
  rw [hflat] at hloop
  refine Ends.of_filter (fun _ => id) (hloop.mono (fun e he => List.mem_of_mem_filter he) ?_)
  intro s hs
  obtain ⟨sites, hmap, hlook, hlines⟩ := hs.lines
  refine ⟨hs.atDepth.indent, hs.times, sites, ?_, ?_, ?_, hlook, hlines, fun lines h hread =>
    callTree_readBack h (hread.trans hlines)⟩
  · rw [hmap]
    exact hcalls
  · rw [hmap]
    exact matched_bracket hcalls hflat
  · rw [hmap]
    exact hflat

/-- The indents of the calls that are open at a depth. -/
def openIndents : Nat → List Nat
  | 0 => []
  | depth + 1 => 2 * depth :: openIndents depth

/-- The lines of some events, for the times at which the open calls started: an entry is written
below them, and a return at the place of the innermost one, with the time since it started. -/
def openLines : List UInt64 → List (Event × Site) → List Line
  | _, [] => []
  | starts, x :: sites =>
    if x.1.goftraceEvent.location = Bpf.entPoint then
      entryLine starts.length x :: openLines (x.1.goftraceEvent.timeNs :: starts) sites
    else
      match starts with
      | [] => openLines [] sites
      | start :: starts => closingLine x.1 start starts.length x.2 :: openLines starts sites

/-- An unfinished stack: the lines of its events in order, one for each, and each return closes
the line of its entry. -/
structure PrintsOpen (cfg : Config) ( trimprefix : String) (f : Elf.File τ) (events : List Event)
    (depth depth' : Nat) (s s' : PrintState τ) : Prop where
  atDepth : s'.AtDepth depth'
  lines : ∃ sites : List (Event × Site),
    sites.map Prod.fst = events.filter (fun e => e.place ≠ .skip) ∧
    (∀ x ∈ sites, LooksUp cfg trimprefix f x.1 x.2) ∧
    s'.lines = s.lines ++ openLines s.startTimeStack sites ∧
    (openLines s.startTimeStack sites).length = sites.length ∧
    replay Line.token (openLines s.startTimeStack sites) (openIndents depth) =
      some (openIndents depth')

/-- The line of an event before those of the others. -/
theorem PrintsOpen.cons {e : Event} {site : Site} {line : Line} {events : List Event}
    {depth depth₁ depth' : Nat} {s s₁ s' : PrintState τ}
    (h : PrintsOpen cfg trimprefix f events depth₁ depth' s₁ s') (he : e.place ≠ .skip)
    (hlook : LooksUp cfg trimprefix f e site) (hline : s₁.lines = s.lines ++ [line])
    (hopens : ∀ sites, openLines s.startTimeStack ((e, site) :: sites) =
      line :: openLines s₁.startTimeStack sites)
    (htoken : line.token.apply (openIndents depth) = some (openIndents depth₁)) :
    PrintsOpen cfg trimprefix f (e :: events) depth depth' s s' := by
  obtain ⟨sites, hsites, hlooks, hlines, hlength, hreplay⟩ := h.lines
  refine ⟨h.atDepth, (e, site) :: sites, ?_, List.forall_mem_cons.mpr ⟨hlook, hlooks⟩, ?_⟩
  · rw [List.filter_cons_of_pos (by simpa using he), List.map_cons, hsites]
  · rw [hopens]
    refine ⟨?_, congrArg (· + 1) hlength, ?_⟩
    · rw [hlines, hline, List.append_assoc, List.singleton_append]
    · rw [replay_cons, htoken]
      exact hreplay

theorem printLoop_open (events : List Event) {depth : Nat} {stack : List Unit} {s : PrintState τ}
    (hs : s.AtDepth depth)
    (h : replay Event.place events (List.replicate depth ()) = some stack) :
    Ends cfg f events (PrintsOpen cfg trimprefix f events depth stack.length s)
      (printLoop cfg trimprefix f s events) := by
  induction events generalizing depth s with
  | nil =>
    obtain rfl := Option.some.inj h
    rw [List.length_replicate]
    exact .returned ⟨hs, [], rfl, nofun, (List.append_nil _).symm, rfl, rfl⟩
  | cons e events ih =>
    rw [replay_cons] at h
    cases he : e.place with
    | skip =>
      rw [he, apply_skip] at h
      refine (printEvent_skip s he).cons fun s₁ hs₁ => ?_
      subst hs₁
      refine (ih hs h).mono (fun _ => id) fun s' hs' => ?_
      obtain ⟨sites, hsites, hrest⟩ := hs'.lines
      refine ⟨hs'.atDepth, sites, ?_, hrest⟩
      rw [hsites, List.filter_cons_of_neg (by simpa using he)]
    | opens k =>
      rw [he, apply_opens] at h
      have hloc := Event.place_eq_opens he
      refine (printEvent_opens hs he).cons fun s₁ hopen => ?_
      obtain ⟨site, hlook, hdepth, htimes, hline⟩ := hopen
      refine (ih hdepth h).mono (fun _ => id) fun s' hs' => ?_
      refine hs'.cons (by simp [he]) hlook hline (fun sites => ?_) rfl
      rw [openLines.eq_def]
      dsimp only
      rw [if_pos hloc, hs.times, htimes]
    | closes k =>
      rw [he] at h
      obtain ⟨rest, happ, hrest⟩ := Option.bind_eq_some_iff.mp h
      have hstack := apply_closes_eq_some happ
      obtain ⟨depth, rfl⟩ : ∃ n, depth = n + 1 := by
        cases depth with
        | zero => cases hstack
        | succ n => exact ⟨n, rfl⟩
      obtain rfl : List.replicate depth () = rest := (List.cons.inj hstack).2
      obtain ⟨hent, -⟩ := Event.place_eq_closes he
      obtain ⟨start, times, htimes⟩ := List.exists_cons_of_length_eq_add_one hs.times
      refine (printEvent_closes hs htimes he).cons fun s₁ hclose => ?_
      obtain ⟨site, hlook, hdepth, htimes₁, hline⟩ := hclose
      refine (ih hdepth hrest).mono (fun _ => id) fun s' hs' => ?_
      have hlen : times.length = depth := by
        rw [← htimes₁]
        exact hdepth.times
      refine hs'.cons (by simp [he]) hlook hline (fun sites => ?_) ?_
      · rw [openLines.eq_def]
        dsimp only
        rw [if_neg hent, htimes, htimes₁]
        dsimp only
        rw [hlen]
      · rw [closingLine, Line.token, openIndents, apply_closes_cons]

end

/-- Stacks are printed when they are not aggregated. -/
theorem View.closing_printed {cfg : Config} {event : GoftraceEvent} {v : View}
    {events : List Event} (h : v.closing cfg event = .printed events) :
    cfg.aggregate = false ∧ events = v.events := by
  unfold closing at h
  split at h
  · split at h <;> cases h
  · rename_i ha
    refine ⟨Bool.eq_false_iff.mpr ha, ?_⟩
    split at h
    · cases h
      rfl
    · split at h
      · split at h
        · cases h
          rfl
        · cases h
      · cases h

end GoFtrace.EventManager
