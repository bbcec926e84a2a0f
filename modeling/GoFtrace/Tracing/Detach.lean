import GoFtrace.Lib.Pool
import GoFtrace.Tracing.Coordinates
import Mathlib.Algebra.Order.BigOperators.Group.Finset

/-!
# Detaching

`Attach`, `StopTracing` and `Detach` of `internal/bpf/bpf.go`: the links are opened one after
another, and they are closed by goroutines of which at most ten are in `Close`. `StopTracing` and
`Detach` may be called by several goroutines at once, and each does its work under a `sync.Once`.

* `attach_opened`: the links that are kept are those that were opened.
* `Kept.step`: what every move preserves.
* `detach_closes`: a call that returns finds every link closed, once.
* `detach_returns`: every call returns.
-/

namespace GoFtrace.Tracing

/-! ## Opening the links -/

/-- The programs of `GoftraceObjects`. -/
inductive Program where
  | ent | ret | goroutineExit
  deriving DecidableEq

/-- The program for a location. -/
def Program.at : UprobeLocation → Program
  | .atEntry => .ent
  | .atRet => .ret
  | .atGoroutineExit => .goroutineExit

section
variable {ε C : Type}

/-- The loop of `Attach`, with `ex.Uprobe` as a parameter. -/
def attachLoop (uprobe : Program → UInt64 → Except ε C) :
    List C → List FileProbe → List C × Option ε
  | closers, [] => (closers, none)
  | closers, up :: uprobes =>
    match uprobe (.at up.location) up.absOffset with
    | .error err => (closers, some err)
    | .ok link => attachLoop uprobe (closers ++ [link]) uprobes

/-- `Attach`: the closers after it, and its error. -/
def attach (ex : Except ε (Program → UInt64 → Except ε C)) (closers : List C)
    (uprobes : List FileProbe) : List C × Option ε :=
  match ex with
  | .error err => (closers, some err)
  | .ok uprobe => attachLoop uprobe closers uprobes

variable {uprobe : Program → UInt64 → Except ε C}

/-- The links of the probes that were attached, each by the program for its location. -/
def Opened (uprobe : Program → UInt64 → Except ε C) : List FileProbe → List C → Prop :=
  List.Forall₂ fun up link => uprobe (.at up.location) up.absOffset = .ok link

theorem attachLoop_opened (closers : List C) (uprobes : List FileProbe) :
    ∃ attached rest links, uprobes = attached ++ rest ∧ Opened uprobe attached links ∧
      (attachLoop uprobe closers uprobes).1 = closers ++ links ∧
      ((attachLoop uprobe closers uprobes).2 = none ↔ rest = []) := by
  induction uprobes generalizing closers with
  | nil => exact ⟨[], [], [], rfl, .nil, (List.append_nil _).symm, by simp [attachLoop]⟩
  | cons up uprobes ih =>
    rw [attachLoop]
    cases hup : uprobe (.at up.location) up.absOffset with
    | error err =>
      exact ⟨[], up :: uprobes, [], rfl, .nil, (List.append_nil _).symm, by simp⟩
    | ok link =>
      obtain ⟨attached, rest, links, rfl, hlinks, hclosers, herr⟩ := ih (closers ++ [link])
      refine ⟨up :: attached, rest, link :: links, rfl, .cons hup hlinks, ?_, herr⟩
      rw [hclosers, List.append_assoc, List.singleton_append]

/-- What was opened is kept, also when a later probe fails. -/
theorem attach_opened (closers : List C) (uprobes : List FileProbe) :
    ∃ attached rest links, uprobes = attached ++ rest ∧ Opened uprobe attached links ∧
      (attach (.ok uprobe) closers uprobes).1 = closers ++ links ∧
      ((attach (.ok uprobe) closers uprobes).2 = none ↔ rest = []) :=
  attachLoop_opened closers uprobes

end

/-! ## Closing them -/

namespace Detaching

open Lib (Pool)

/-- `semaphore.NewWeighted(10)`. -/
def permits : Nat := 10

inductive Call where
  | stopTracing | detach
  deriving DecidableEq

/-- The points of a goroutine in `Detach` and `StopTracing`. -/
inductive Point where
  /-- At `closeOnce.Do`. -/
  | closeDo
  /-- At `linksOnce.Do`. -/
  | linksDo
  /-- In the function that `linksOnce` runs. -/
  | stopping
  /-- In the function that `closeOnce` runs, behind `StopTracing`. -/
  | closing
  | returned
  deriving DecidableEq

/-- The point at which a call begins. -/
def Call.start : Call → Point
  | .stopTracing => .linksDo
  | .detach => .closeDo

/-- The point behind `linksOnce.Do`. -/
def Call.after : Call → Point
  | .stopTracing => .returned
  | .detach => .closing

/-- `sync.Once`: a second caller waits as long as the function runs. -/
inductive Once (κ : Type) where
  | idle
  | running (i : κ)
  | done

variable {κ C : Type}

structure State (κ C : Type) where
  pc : κ → Point
  linksOnce : Once κ := .idle
  closeOnce : Once κ := .idle
  /-- The links: those before the loop, those in `Close` and those that are closed. -/
  pool : Pool C
  /-- `objs` is not `nil`. -/
  objs : Bool
  /-- For the record: the calls of `objs.Close`. -/
  objsCloses : Nat := 0

/-- Before the calls. -/
def State.start (calls : κ → Call) (closers : List C) (objs : Bool) : State κ C :=
  { pc := fun i => (calls i).start, pool := { todo := closers }, objs := objs }

variable [DecidableEq κ]

/-- A goroutine goes on. -/
def State.goto (s : State κ C) (i : κ) (p : Point) : State κ C :=
  { s with pc := Function.update s.pc i p }

/-- The moves of the callers and of the goroutines that close the links. -/
inductive Step (calls : κ → Call) : State κ C → State κ C → Prop
  | closeFirst {s : State κ C} {i : κ} (hpc : s.pc i = .closeDo) (honce : s.closeOnce = .idle) :
      Step calls s { s.goto i .linksDo with closeOnce := .running i }
  | closeAgain {s : State κ C} {i : κ} (hpc : s.pc i = .closeDo) (honce : s.closeOnce = .done) :
      Step calls s (s.goto i .returned)
  | linksFirst {s : State κ C} {i : κ} (hpc : s.pc i = .linksDo) (honce : s.linksOnce = .idle) :
      Step calls s { s.goto i .stopping with linksOnce := .running i }
  | linksAgain {s : State κ C} {i : κ} (hpc : s.pc i = .linksDo) (honce : s.linksOnce = .done) :
      Step calls s (s.goto i (calls i).after)
  /-- The loop acquires a permit for a link, or a goroutine closes its link or releases. -/
  | link {s : State κ C} {pool : Pool C} (honce : s.linksOnce ≠ .idle)
      (hstep : Pool.Step permits s.pool pool) : Step calls s { s with pool := pool }
  /-- All permits are acquired. -/
  | stopped {s : State κ C} {i : κ} (hpc : s.pc i = .stopping) (hdrained : s.pool.Drained) :
      Step calls s { s.goto i (calls i).after with linksOnce := .done }
  | close {s : State κ C} {i : κ} (hpc : s.pc i = .closing) :
      Step calls s
        { s.goto i .returned with
          closeOnce := .done, objs := false, objsCloses := s.objsCloses + s.objs.toNat }

/-- A number of moves. -/
inductive Run (calls : κ → Call) : State κ C → Nat → State κ C → Prop
  | nil (s : State κ C) : Run calls s 0 s
  | cons {s s' t : State κ C} {n : Nat} (hstep : Step calls s s') (hrun : Run calls s' n t) :
      Run calls s (n + 1) t

/-! ## What is kept -/

/-- What the point of a goroutine says of the two `Once`. -/
structure Placed (call : Call) (linksOnce closeOnce : Once κ) (i : κ) (p : Point) : Prop where
  stopping : p = .stopping ↔ linksOnce = .running i
  closing : closeOnce = .running i ↔ call = .detach ∧ p ≠ .closeDo ∧ p ≠ .returned
  own : call = .stopTracing → p ≠ .closeDo ∧ p ≠ .closing
  passed : p = .closing ∨ p = .returned → linksOnce = .done
  returned : call = .detach → p = .returned → closeOnce = .done

/-- What the calls of a goroutine can do to a `Once`. -/
def Once.Moves (i : κ) (o o' : Once κ) : Prop :=
  o' = o ∨ o = .idle ∧ o' = .running i ∨ o = .running i ∧ o' = .done

omit [DecidableEq κ] in
/-- A move of another goroutine. -/
theorem Placed.others {call : Call} {o o' p p' : Once κ} {i j : κ} {pc : Point}
    (h : Placed call o p j pc) (hne : j ≠ i) (ho : o.Moves i o') (hp : p.Moves i p') :
    Placed call o' p' j pc := by
  obtain ⟨hstopping, hclosing, hown, hpassed, hreturned⟩ := h
  rcases ho with rfl | ⟨rfl, rfl⟩ | ⟨rfl, rfl⟩ <;>
    rcases hp with rfl | ⟨rfl, rfl⟩ | ⟨rfl, rfl⟩ <;> constructor <;> grind

section
omit [DecidableEq κ]

variable {call : Call} {o c : Once κ} {i : κ}

theorem Placed.closeFirst (h : Placed call o c i .closeDo) (hc : c = .idle) :
    Placed call o (.running i) i .linksDo := by
  subst hc
  obtain ⟨hstopping, hclosing, hown, hpassed, hreturned⟩ := h
  constructor <;> grind [Call]

theorem Placed.closeAgain (h : Placed call o c i .closeDo) (ho : o = .done) (hc : c = .done) :
    Placed call o c i .returned := by
  subst ho hc
  constructor <;> simp

theorem Placed.linksFirst (h : Placed call o c i .linksDo) (ho : o = .idle) :
    Placed call (.running i) c i .stopping := by
  subst ho
  obtain ⟨hstopping, hclosing, hown, hpassed, hreturned⟩ := h
  constructor <;> grind

/-- Behind `linksOnce.Do`. -/
theorem Placed.after {p : Point} (h : Placed call o c i p) (hp : p = .linksDo ∨ p = .stopping)
    {o' : Once κ} (ho : o' = .done) : Placed call o' c i call.after := by
  obtain ⟨hstopping, hclosing, hown, hpassed, hreturned⟩ := h
  cases call with
  | stopTracing => constructor <;> grind [Call.after]
  | detach => constructor <;> grind [Call.after]

/-- The function of `closeOnce` is run by the goroutine behind `StopTracing`. -/
theorem Placed.running (h : Placed call o c i .closing) : c = .running i := by
  refine h.closing.mpr ⟨?_, nofun, nofun⟩
  cases call with
  | stopTracing => exact absurd rfl (h.own rfl).2
  | detach => rfl

theorem Placed.close (h : Placed call o c i .closing) (ho : o = .done) :
    Placed call o .done i .returned := by
  subst ho
  constructor <;> simp

end

/-- What holds in every state of a run. -/
structure Kept (calls : κ → Call) (closers : List C) (objs : Bool) (s : State κ C) : Prop where
  serves : Pool.Serves closers permits s.pool
  fresh : s.linksOnce = .idle → s.pool = { todo := closers }
  placed : ∀ i, Placed (calls i) s.linksOnce s.closeOnce i (s.pc i)
  drained : s.linksOnce = .done → s.pool.Drained
  opened : s.closeOnce ≠ .done → s.objs = objs ∧ s.objsCloses = 0
  closed : s.closeOnce = .done →
    s.linksOnce = .done ∧ s.objs = false ∧ s.objsCloses = objs.toNat

variable {calls : κ → Call} {closers : List C} {objs : Bool} {s s' t : State κ C}

omit [DecidableEq κ] in
theorem kept_start (calls : κ → Call) (closers : List C) (objs : Bool) :
    Kept calls closers objs (State.start calls closers objs) where
  serves := Pool.serves_fresh _ _
  fresh _ := rfl
  placed i := by
    show Placed (calls i) .idle .idle i (calls i).start
    cases calls i with
    | stopTracing => constructor <;> simp [Call.start]
    | detach => constructor <;> simp [Call.start]
  drained h := by cases h
  opened _ := ⟨rfl, rfl⟩
  closed h := by cases h

/-- The places after a move of one goroutine. -/
theorem Kept.placed_goto (h : Kept calls closers objs s) {i : κ} {p : Point} {o c : Once κ}
    (ho : s.linksOnce.Moves i o) (hc : s.closeOnce.Moves i c)
    (hi : Placed (calls i) o c i p) (j : κ) : Placed (calls j) o c j ((s.goto i p).pc j) := by
  by_cases hj : j = i
  · subst hj
    show Placed (calls j) o c j (Function.update s.pc j p j)
    rwa [Function.update_self]
  · show Placed (calls j) o c j (Function.update s.pc i p j)
    rw [Function.update_of_ne hj]
    exact (h.placed j).others hj ho hc

theorem Kept.step (hstep : Step calls s s') (h : Kept calls closers objs s) :
    Kept calls closers objs s' := by
  cases hstep with
  | @closeFirst i hpc honce =>
    have hopened := h.opened (by rw [honce]; nofun)
    refine ⟨h.serves, h.fresh, h.placed_goto (.inl rfl) (.inr (.inl ⟨honce, rfl⟩)) ?_, h.drained,
      fun _ => hopened, nofun⟩
    have hi := hpc ▸ h.placed i
    exact hi.closeFirst honce
  | @closeAgain i hpc honce =>
    have hlinks := (h.closed honce).1
    refine ⟨h.serves, h.fresh, h.placed_goto (.inl rfl) (.inl rfl) ?_, h.drained, h.opened,
      h.closed⟩
    have hi := hpc ▸ h.placed i
    exact hi.closeAgain hlinks honce
  | @linksFirst i hpc honce =>
    refine ⟨h.serves, nofun, h.placed_goto (.inr (.inl ⟨honce, rfl⟩)) (.inl rfl) ?_, nofun,
      h.opened, fun hdone => ?_⟩
    · have hi := hpc ▸ h.placed i
      exact hi.linksFirst honce
    · have hlinks := (h.closed hdone).1
      rw [honce] at hlinks
      cases hlinks
  | @linksAgain i hpc honce =>
    refine ⟨h.serves, h.fresh, h.placed_goto (.inl rfl) (.inl rfl) ?_, h.drained, h.opened,
      h.closed⟩
    have hi := hpc ▸ h.placed i
    exact hi.after (.inl rfl) honce
  | link honce hstep =>
    refine ⟨h.serves.step hstep, fun hidle => absurd hidle honce, h.placed, fun hdone => ?_,
      h.opened, h.closed⟩
    exact absurd hstep (h.drained hdone).not_step
  | @stopped i hpc hdrained =>
    have hi := hpc ▸ h.placed i
    have hlinks := hi.stopping.mp rfl
    refine ⟨h.serves, nofun, h.placed_goto (.inr (.inr ⟨hlinks, rfl⟩)) (.inl rfl) ?_,
      fun _ => hdrained, h.opened, fun hdone => ⟨rfl, (h.closed hdone).2⟩⟩
    exact hi.after (.inr rfl) rfl
  | @close i hpc =>
    have hi := hpc ▸ h.placed i
    have hrunning := hi.running
    have hlinks := hi.passed (.inl rfl)
    obtain ⟨hobjs, hcloses⟩ := h.opened (by rw [hrunning]; nofun)
    refine ⟨h.serves, h.fresh, h.placed_goto (.inl rfl) (.inr (.inr ⟨hrunning, rfl⟩)) ?_,
      h.drained, fun hne => absurd rfl hne, fun _ => ⟨hlinks, rfl, ?_⟩⟩
    · exact hi.close hlinks
    · show s.objsCloses + s.objs.toNat = objs.toNat
      rw [hobjs, hcloses, Nat.zero_add]

theorem Kept.run {n : Nat} (hrun : Run calls s n t) (h : Kept calls closers objs s) :
    Kept calls closers objs t := by
  induction hrun with
  | nil => exact h
  | cons hstep _ ih => exact ih (h.step hstep)

/-! ## Every call returns -/

/-- The moves that are left at a point. -/
def Point.left : Point → Nat
  | .closeDo => 4
  | .linksDo => 3
  | .stopping => 2
  | .closing => 1
  | .returned => 0

omit [DecidableEq κ] in
theorem Call.after_left (call : Call) : call.after.left < Point.left .stopping := by
  cases call <;> decide

section
variable [Fintype κ]

/-- The moves that are left. -/
def State.left (s : State κ C) : Nat := ∑ i, (s.pc i).left + s.pool.work

theorem State.goto_left {i : κ} {p : Point} (hlt : p.left < (s.pc i).left) :
    ∑ j, ((s.goto i p).pc j).left < ∑ j, (s.pc j).left := by
  have hself : ((s.goto i p).pc i).left < (s.pc i).left := by
    show (Function.update s.pc i p i).left < _
    rwa [Function.update_self]
  apply Finset.sum_lt_sum
  · intro j _
    by_cases hj : j = i
    · subst hj
      exact Nat.le_of_lt hself
    · show (Function.update s.pc i p j).left ≤ _
      rw [Function.update_of_ne hj]
  · exact ⟨i, Finset.mem_univ i, hself⟩

/-- Every move is progress. -/
theorem Step.left_lt (hstep : Step calls s s') : s'.left < s.left := by
  cases hstep with
  | closeFirst hpc | closeAgain hpc | linksFirst hpc | close hpc =>
    exact Nat.add_lt_add_right (State.goto_left (by rw [hpc]; decide)) _
  | @linksAgain i hpc honce =>
    refine Nat.add_lt_add_right (State.goto_left ?_) _
    rw [hpc]
    exact Nat.lt_trans (calls i).after_left (by decide)
  | @stopped i hpc hdrained =>
    refine Nat.add_lt_add_right (State.goto_left ?_) _
    rw [hpc]
    exact (calls i).after_left
  | link _ hstep => exact Nat.add_lt_add_left hstep.work_lt _

theorem Run.left_le {n : Nat} (hrun : Run calls s n t) : n + t.left ≤ s.left := by
  induction hrun with
  | nil => rw [Nat.zero_add]
  | cons hstep _ ih =>
    have hlt := hstep.left_lt
    omega

omit [DecidableEq κ] in
theorem start_left_le (calls : κ → Call) (closers : List C) (objs : Bool) :
    (State.start calls closers objs).left ≤ 4 * Fintype.card κ + 3 * closers.length := by
  have hsum : ∑ i, (calls i).start.left ≤ ∑ _i : κ, 4 := by
    apply Finset.sum_le_sum
    intro i _
    cases calls i <;> decide
  rw [Finset.sum_const, Finset.card_univ, nsmul_eq_mul, Nat.cast_id, Nat.mul_comm] at hsum
  exact Nat.add_le_add hsum (Nat.le_of_eq (by simp [State.start, Pool.work]))

end

/-- As long as a call has not returned, there is a move. -/
theorem Kept.exists_step (h : Kept calls closers objs s) {i : κ} (hi : s.pc i ≠ .returned) :
    ∃ s', Step calls s s' := by
  -- the goroutine that runs the function of `linksOnce` is not blocked
  have hstopping : ∀ j, s.pc j = .stopping → ∃ s', Step calls s s' := by
    intro j hj
    by_cases hdrained : s.pool.Drained
    · exact ⟨_, .stopped hj hdrained⟩
    · obtain ⟨pool, hpool⟩ := @Pool.exists_step _ permits _ (by decide) hdrained
      exact ⟨_, .link (by rw [(h.placed j).stopping.mp hj]; nofun) hpool⟩
  have hlinks : ∀ j, s.pc j = .linksDo → ∃ s', Step calls s s' := by
    intro j hj
    cases honce : s.linksOnce with
    | idle => exact ⟨_, .linksFirst hj honce⟩
    | running k => exact hstopping k ((h.placed k).stopping.mpr honce)
    | done => exact ⟨_, .linksAgain hj honce⟩
  have hinside : ∀ j, s.pc j ≠ .closeDo → s.pc j ≠ .returned → ∃ s', Step calls s s' := by
    intro j hdo hret
    cases hj : s.pc j with
    | closeDo => exact absurd hj hdo
    | linksDo => exact hlinks j hj
    | stopping => exact hstopping j hj
    | closing => exact ⟨_, .close hj⟩
    | returned => exact absurd hj hret
  by_cases hdo : s.pc i = .closeDo
  · cases honce : s.closeOnce with
    | idle => exact ⟨_, .closeFirst hdo honce⟩
    | running k =>
      obtain ⟨-, hk⟩ := (h.placed k).closing.mp honce
      exact hinside k hk.1 hk.2
    | done => exact ⟨_, .closeAgain hdo honce⟩
  · exact hinside i hdo hi

/-! ## The results -/

/-- What a state says of the links `closers` and of the objects. -/
structure Closes (calls : κ → Call) (closers : List C) (objs : Bool) (s : State κ C) : Prop where
  /-- No more than ten goroutines are in `Close` or about to release. -/
  atOnce : s.pool.held ≤ 10
  /-- `Close` is called at most once for each link, and for nothing else. -/
  once : (s.pool.done ++ s.pool.working).Subperm closers
  /-- The objects are closed at most once, behind the links. -/
  objects : s.objsCloses = 0 ∨ s.objsCloses = 1 ∧ objs = true ∧ s.pool.done.Perm closers
  /-- Who returns finds every link closed. -/
  links : ∀ i, s.pc i = .returned → s.pool.done.Perm closers
  /-- Who returns from `Detach` finds the objects closed. -/
  detached : ∀ i, calls i = .detach → s.pc i = .returned →
    s.objs = false ∧ s.objsCloses = objs.toNat

omit [DecidableEq κ] in
theorem Kept.closes (h : Kept calls closers objs s) : Closes calls closers objs s where
  atOnce := h.serves.held
  once := h.serves.started
  objects := by
    by_cases hdone : s.closeOnce = .done
    · obtain ⟨hlinks, -, hcloses⟩ := h.closed hdone
      cases objs with
      | false => exact .inl hcloses
      | true => exact .inr ⟨hcloses, rfl, h.serves.done (h.drained hlinks)⟩
    · exact .inl (h.opened hdone).2
  links i hi := h.serves.done (h.drained ((h.placed i).passed (.inr hi)))
  detached i hcall hi := (h.closed ((h.placed i).returned hcall hi)).2

/-- `Detach` by one goroutine, while another one calls `StopTracing`. -/
def interrupted (detaching : Bool) : Call := if detaching then .detach else .stopTracing

/-- A run in which `Detach` waits for the other call. -/
theorem interrupted_run (link : C) :
    ∃ t, Run interrupted (.start interrupted [link] true) 8 t ∧ ∀ i, t.pc i = .returned := by
  refine ⟨_, .cons (@Step.closeFirst _ _ _ _ _ true rfl rfl) <|
    .cons (@Step.linksFirst _ _ _ _ _ false rfl rfl) <|
    .cons (.link nofun (.start rfl (show 0 < permits by decide))) <|
    .cons (.link nofun (@Pool.Step.finish _ _ _ link [] [] rfl)) <|
    .cons (.link nofun (.release rfl)) <|
    .cons (@Step.stopped _ _ _ _ _ false rfl ⟨rfl, rfl⟩) <|
    .cons (@Step.linksAgain _ _ _ _ _ true rfl rfl) <|
    .cons (@Step.close _ _ _ _ _ true rfl) (.nil _), ?_⟩
  intro i
  cases i <;> rfl

end Detaching

open Detaching in
/-- The links that `Attach` has opened, also when it fails halfway, are closed whatever the order
in which the calls and the goroutines go on. -/
theorem detach_closes {κ ε C : Type} [DecidableEq κ]
    (uprobe : Program → UInt64 → Except ε C) (uprobes : List FileProbe) (calls : κ → Call)
    (objs : Bool) {n : Nat} {t : State κ C}
    (hrun : Run calls (.start calls (attach (.ok uprobe) [] uprobes).1 objs) n t) :
    ∃ attached rest links, uprobes = attached ++ rest ∧ Opened uprobe attached links ∧
      ((attach (.ok uprobe) [] uprobes).2 = none ↔ rest = []) ∧ Closes calls links objs t := by
  obtain ⟨attached, rest, links, huprobes, hopened, hclosers, herr⟩ :=
    @attach_opened ε C uprobe [] uprobes
  rw [hclosers, List.nil_append] at hrun
  exact ⟨attached, rest, links, huprobes, hopened, herr, ((kept_start _ _ _).run hrun).closes⟩

/-- Opens each probe under its address. -/
def openAddress (_ : Program) (address : UInt64) : Except String UInt64 := .ok address

open Detaching in
theorem detach_closes_interrupted :
    ∃ t : State Bool UInt64, (∀ i, t.pc i = .returned) ∧
      ∃ attached rest links, [goexitProbe noSymbol 64] = attached ++ rest ∧
        Opened openAddress attached links ∧
        ((attach (.ok openAddress) [] [goexitProbe noSymbol 64]).2 = none ↔ rest = []) ∧
        Closes interrupted links true t := by
  obtain ⟨t, hrun, hreturned⟩ := interrupted_run (64 : UInt64)
  exact ⟨t, hreturned, detach_closes openAddress [goexitProbe noSymbol 64] interrupted true hrun⟩

open Detaching in
/-- A run has at most four moves for each call and three for each link, and it cannot end before
every call has returned. -/
theorem detach_returns {κ C : Type} [DecidableEq κ] [Fintype κ] (calls : κ → Call)
    (closers : List C) (objs : Bool) {n : Nat} {t : State κ C}
    (hrun : Run calls (.start calls closers objs) n t) :
    n ≤ 4 * Fintype.card κ + 3 * closers.length ∧
      ((∀ t', ¬Step calls t t') → ∀ i, t.pc i = .returned) := by
  refine ⟨?_, fun hend i => ?_⟩
  · have hle := hrun.left_le
    have hstart := start_left_le calls closers objs
    omega
  · by_contra hi
    obtain ⟨t', hstep⟩ := ((kept_start calls closers objs).run hrun).exists_step hi
    exact hend t' hstep

open Detaching in
theorem detach_returns_interrupted :
    ∃ t : State Bool UInt64, 8 ≤ 4 * Fintype.card Bool + 3 * [(64 : UInt64)].length ∧
      ((∀ t', ¬Step interrupted t t') → ∀ i, t.pc i = .returned) := by
  obtain ⟨t, hrun, -⟩ := interrupted_run (64 : UInt64)
  exact ⟨t, detach_returns interrupted [64] true hrun⟩

end GoFtrace.Tracing
