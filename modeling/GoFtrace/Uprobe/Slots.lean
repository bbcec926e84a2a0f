import GoFtrace.Uprobe.Layout

/-!
# Slots

Each leaf of a plan is a slot: the place of a node below a variable, and the part of the node that
the leaf holds. A place counts the variables and the fields, so that it does not depend on their
names.

* `planValue_emits`: a planned variable emits its slots.
* `derive_names`: the leaves of a plan are named after its slots.
-/

namespace GoFtrace.Uprobe

/-! ## Slots -/

/-- What a leaf holds of the node that it is emitted for. -/
inductive Role where
  /-- The node itself, a single word. -/
  | word
  | ifaceType
  | ifaceData
  /-- The data word of a string or a slice. -/
  | data
  | len
  | cap
  /-- A capture. -/
  | str
  | arr
  | value
  | obj
  deriving DecidableEq, Repr

def Role.suffix : Role → List String
  | .word => []
  | .ifaceType => ["type"]
  | .ifaceData => ["data"]
  | .data => ["data"]
  | .len => ["len"]
  | .cap => ["cap"]
  | .str => ["str"]
  | .arr => ["arr"]
  | .value => ["value"]
  | .obj => ["obj"]

/-- The way to a node: the number and the name of the variable, then those of the fields. -/
abbrev Place := List (Nat × String)

def Place.names (p : Place) : List String := p.map Prod.snd

def Place.name (p : Place) : String := ".".intercalate p.names

structure Slot where
  place : Place
  role : Role
  deriving DecidableEq, Repr

namespace Slot

def names (s : Slot) : List String := s.place.names ++ s.role.suffix

def name (s : Slot) : String := ".".intercalate s.names

/-- The type slot of the same node. -/
def typeSlot (s : Slot) : Slot := { s with role := .ifaceType }

end Slot

/-! ## Nodes -/

/-- A node that leaves are emitted for; `plain` stands for a single word. -/
structure Node where
  place : Place
  kind : StructKind

mutual

/-- The nodes below a type, in the order of the walk. -/
def DType.nodes (p : Place) : DType → List Node
  | .typedef _ t => t.nodes p
  | .qual _ t => t.nodes p
  | .struct _ s _ fs =>
    match structKind s fs with
    | .plain => fs.nodes p 0
    | kind => [{ place := p, kind := kind }]
  | _ => [{ place := p, kind := .plain }]

def Fields.nodes (p : Place) : Nat → Fields → List Node
  | _, .nil => []
  | k, .cons n _ t rest => t.nodes (p ++ [(k, n)]) ++ rest.nodes p (k + 1)

end

namespace StructKind

/-- The words of a node. -/
def wordRoles : StructKind → List Role
  | .string => [.data, .len]
  | .slice => [.data, .len, .cap]
  | .iface _ => [.ifaceType, .ifaceData]
  | .plain => [.word]

/-- The captures of a node held in registers. -/
def captureRoles : StructKind → List Role
  | .string => [.str]
  | .slice => [.arr]
  | .iface _ => [.value]
  | .plain => []

/-- The captures of a node in memory; an empty interface has no type slot there. -/
def memoryRoles : StructKind → List Role
  | .string => [.str]
  | .slice => [.arr]
  | .iface true => [.ifaceType, .ifaceData, .value]
  | .iface false => [.ifaceData, .value]
  | .plain => []

end StructKind

def Node.slots (roles : StructKind → List Role) (n : Node) : List Slot :=
  (roles n.kind).map fun role => { place := n.place, role := role }

/-- The slots of a list of nodes. -/
def nodeSlots (roles : StructKind → List Role) (nodes : List Node) : List Slot :=
  nodes.flatMap (Node.slots roles)

/-- The slots of a variable. -/
def DType.slots (p : Place) (t : DType) : List Slot :=
  match t.underlying.objectPointee with
  | some elem =>
    [{ place := p, role := .word }, { place := p, role := .obj }] ++
      nodeSlots StructKind.memoryRoles (elem.nodes p)
  | none =>
    nodeSlots StructKind.wordRoles (t.nodes p) ++ nodeSlots StructKind.captureRoles (t.nodes p)

/-- The variables that the planner has a value for, with their numbers. -/
def planned (rename : String → String) : Nat → List Variable → FlatCtx → List (Nat × Variable)
  | _, [], _ => []
  | k, v :: vars, c =>
    if c.full then []
    else
      let (c, node) := planValue v.type (rename v.name) c
      (node.toList.map fun _ => (k, v)) ++ planned rename (k + 1) vars c

/-- The slots of the planned variables. -/
def slots (rename : String → String) (vars : List Variable) : List Slot :=
  (planned rename 0 vars {}).flatMap fun kv => kv.2.type.slots [(kv.1, rename kv.2.name)]

/-! ## Names of the leaves -/

/-- How the planner writes a part behind the name of a node. -/
def Role.text (role : Role) : String :=
  match role.suffix with
  | [] => ""
  | part :: _ => "." ++ part

section
variable {p : Place}

theorem Place.names_concat (x : Nat × String) : Place.names (p ++ [x]) = p.names ++ [x.2] := by
  rw [Place.names, List.map_append]
  rfl

theorem Place.names_ne_nil (hp : p ≠ []) : p.names ≠ [] := by
  intro h
  exact hp (List.map_eq_nil_iff.mp h)

theorem Place.name_concat (hp : p ≠ []) (x : Nat × String) :
    Place.name (p ++ [x]) = p.name ++ "." ++ x.2 := by
  rw [Place.name, Place.names_concat,
    String.intercalate_append_of_ne_nil (Place.names_ne_nil hp) (by simp),
    String.intercalate_singleton]
  rfl

theorem Slot.name_eq (hp : p ≠ []) (role : Role) :
    Slot.name { place := p, role := role } = p.name ++ role.text := by
  have hpart : ∀ part : String,
      ".".intercalate (p.names ++ [part]) = p.name ++ ("." ++ part) := by
    intro part
    rw [String.intercalate_append_of_ne_nil (Place.names_ne_nil hp) (by simp),
      String.intercalate_singleton, String.append_assoc]
    rfl
  rw [Slot.name, Slot.names]
  cases role with
  | word => exact (congrArg _ (List.append_nil _)).trans String.append_empty.symm
  | _ => exact hpart _

theorem map_name_slots (hp : p ≠ []) (roles : StructKind → List Role) (kind : StructKind) :
    (nodeSlots roles [{ place := p, kind := kind }]).map Slot.name =
      (roles kind).map fun role => p.name ++ role.text := by
  rw [nodeSlots, List.flatMap_singleton, Node.slots, List.map_map]
  exact List.map_congr_left fun role _ => Slot.name_eq hp role

end

namespace FlatCtx

/-- The names of the leaves emitted so far. -/
def names (c : FlatCtx) : List String := c.out.map (·.name)

@[simp] theorem names_emit (c : FlatCtx) (s : ArgSpec) :
    (c.emit s).names = c.names ++ [s.name] := by
  rw [names, emit, List.map_append]
  rfl

@[simp] theorem names_nextWord (c : FlatCtx) : c.nextWord.1.names = c.names := by
  unfold nextWord
  split <;> rfl

/-- A single word. -/
theorem names_word (c : FlatCtx) (name : String) (size : Int) (typ : String) :
    (c.nextWord.1.emit (scalarRegSpec name size typ c.nextWord.2)).names = c.names ++ [name] := by
  rw [names_emit, names_nextWord]
  rfl

@[simp] theorem names_reserve (c : FlatCtx) (n : Nat) : (c.reserve n).1.names = c.names := by
  unfold reserve
  split <;> rfl

end FlatCtx

/-- The names of the leaves of a capture job. -/
def CaptureJob.names (job : CaptureJob) : List String :=
  match job.kind with
  | .string => [job.name]
  | .slice => [job.name]
  | .iface _ => [job.name ++ ".value"]
  | .plain => []

theorem names_emitRegCaptures (jobs : List CaptureJob) (c : FlatCtx) :
    (jobs.foldl (fun c job => emitRegCaptures job c) c).names =
      c.names ++ jobs.flatMap CaptureJob.names := by
  induction jobs generalizing c with
  | nil => exact (List.append_nil _).symm
  | cons job jobs ih =>
    have hjob : (emitRegCaptures job c).names = c.names ++ job.names := by
      unfold emitRegCaptures CaptureJob.names
      cases job.kind with
      | plain => exact (List.append_nil _).symm
      | _ => exact FlatCtx.names_emit c _
    rw [List.foldl_cons, ih, hjob, List.flatMap_cons, List.append_assoc]

@[simp] theorem names_ifaceTypeSpec (nonEmpty : Bool) (name : String) (reg : Option Reg) :
    (ifaceTypeSpec nonEmpty name reg).name = name ++ ".type" := by
  cases nonEmpty <;> rfl

theorem map_name_word {p : Place} (hp : p ≠ []) :
    (nodeSlots StructKind.wordRoles [{ place := p, kind := .plain }]).map Slot.name = [p.name] := by
  rw [map_name_slots hp]
  exact congrArg (fun name => [name]) String.append_empty

theorem nodeSlots_append (roles : StructKind → List Role) (xs ys : List Node) :
    nodeSlots roles (xs ++ ys) = nodeSlots roles xs ++ nodeSlots roles ys :=
  List.flatMap_append

mutual

theorem DType.names_emitABI {p : Place} (hp : p ≠ []) : ∀ (t : DType) (c : FlatCtx),
    (t.emitABI p.name c).1.names =
        c.names ++ (nodeSlots StructKind.wordRoles (t.nodes p)).map Slot.name ∧
      (t.emitABI p.name c).2.flatMap CaptureJob.names =
        (nodeSlots StructKind.captureRoles (t.nodes p)).map Slot.name
  | .typedef _ t, c => DType.names_emitABI hp t c
  | .qual _ t, c => DType.names_emitABI hp t c
  | .struct _ s _ fs, c => by
    rw [DType.emitABI, DType.nodes]
    cases structKind s fs with
    | string =>
      simp only [map_name_slots hp]
      constructor
      · simp only [FlatCtx.names_emit, FlatCtx.names_nextWord, List.append_assoc]
        rfl
      · rfl
    | slice =>
      simp only [map_name_slots hp]
      constructor
      · simp only [FlatCtx.names_emit, FlatCtx.names_nextWord, List.append_assoc]
        rfl
      · rfl
    | iface nonEmpty =>
      simp only [map_name_slots hp]
      constructor
      · simp only [FlatCtx.names_emit, FlatCtx.names_nextWord, names_ifaceTypeSpec,
          List.append_assoc]
        rfl
      · rfl
    | plain => exact Fields.names_emitABI hp fs 0 c
  | .ptr n b t, c => by
    have hnodes : (DType.ptr n b t).nodes p = [{ place := p, kind := .plain }] := rfl
    rw [hnodes, map_name_word hp]
    exact ⟨FlatCtx.names_word c _ _ _, rfl⟩
  | .basic k n b, c => by
    have hnodes : (DType.basic k n b).nodes p = [{ place := p, kind := .plain }] := rfl
    rw [hnodes, map_name_word hp]
    cases k <;> exact ⟨FlatCtx.names_word c _ _ _, rfl⟩
  | .func n x b, c => by
    have hnodes : (DType.func n x b).nodes p = [{ place := p, kind := .plain }] := rfl
    rw [hnodes, map_name_word hp]
    exact ⟨FlatCtx.names_word c _ _ _, rfl⟩
  | .other n x b, c => by
    have hnodes : (DType.other n x b).nodes p = [{ place := p, kind := .plain }] := rfl
    rw [hnodes, map_name_word hp]
    exact ⟨FlatCtx.names_word c _ _ _, rfl⟩

theorem Fields.names_emitABI {p : Place} (hp : p ≠ []) : ∀ (fs : Fields) (k : Nat) (c : FlatCtx),
    (fs.emitABI p.name c).1.names =
        c.names ++ (nodeSlots StructKind.wordRoles (fs.nodes p k)).map Slot.name ∧
      (fs.emitABI p.name c).2.flatMap CaptureJob.names =
        (nodeSlots StructKind.captureRoles (fs.nodes p k)).map Slot.name
  | .nil, _, c => ⟨(List.append_nil _).symm, rfl⟩
  | .cons n _ t rest, k, c => by
    have hfield : p ++ [(k, n)] ≠ [] := List.append_ne_nil_of_right_ne_nil p (List.cons_ne_nil _ _)
    obtain ⟨hwords, hjobs⟩ := DType.names_emitABI hfield t c
    rw [Place.name_concat hp] at hwords hjobs
    rw [Fields.emitABI, Fields.nodes, nodeSlots_append, nodeSlots_append, List.map_append,
      List.map_append]
    generalize t.emitABI (p.name ++ "." ++ n) c = field at hwords hjobs
    obtain ⟨hrest, hmore⟩ := Fields.names_emitABI hp rest (k + 1) field.1
    dsimp only
    rw [hrest, hwords, List.flatMap_append, hjobs, hmore, List.append_assoc]
    exact ⟨rfl, rfl⟩

end

mutual

theorem DType.names_emitMemCaptures {p : Place} (hp : p ≠ []) :
    ∀ (t : DType) (loc : MemLoc) (c : FlatCtx),
      (t.emitMemCaptures p.name loc c).names =
        c.names ++ (nodeSlots StructKind.memoryRoles (t.nodes p)).map Slot.name
  | .typedef _ t, loc, c => DType.names_emitMemCaptures hp t loc c
  | .qual _ t, loc, c => DType.names_emitMemCaptures hp t loc c
  | .struct _ s _ fs, loc, c => by
    rw [DType.emitMemCaptures, DType.nodes]
    cases structKind s fs with
    | string =>
      rw [map_name_slots hp]
      exact FlatCtx.names_emit c _
    | slice =>
      rw [map_name_slots hp]
      exact FlatCtx.names_emit c _
    | iface nonEmpty =>
      simp only [map_name_slots hp]
      cases nonEmpty with
      | true =>
        simp only [if_true, FlatCtx.names_emit, List.append_assoc]
        rfl
      | false =>
        simp only [Bool.false_eq_true, if_false, FlatCtx.names_emit, List.append_assoc]
        rfl
    | plain => exact Fields.names_emitMemCaptures hp fs 0 loc c
  | .ptr _ _ _, _, c => (List.append_nil _).symm
  | .basic _ _ _, _, c => (List.append_nil _).symm
  | .func _ _ _, _, c => (List.append_nil _).symm
  | .other _ _ _, _, c => (List.append_nil _).symm

theorem Fields.names_emitMemCaptures {p : Place} (hp : p ≠ []) :
    ∀ (fs : Fields) (k : Nat) (loc : MemLoc) (c : FlatCtx),
      (fs.emitMemCaptures p.name loc c).names =
        c.names ++ (nodeSlots StructKind.memoryRoles (fs.nodes p k)).map Slot.name
  | .nil, _, _, c => (List.append_nil _).symm
  | .cons n off t rest, k, loc, c => by
    have hfield : p ++ [(k, n)] ≠ [] := List.append_ne_nil_of_right_ne_nil p (List.cons_ne_nil _ _)
    have hnames := DType.names_emitMemCaptures hfield t (loc.add off) c
    rw [Place.name_concat hp] at hnames
    rw [Fields.emitMemCaptures, Fields.nodes, nodeSlots_append, List.map_append,
      Fields.names_emitMemCaptures hp rest (k + 1), hnames, List.append_assoc]

end

theorem DType.nodes_underlying (p : Place) : ∀ t : DType, t.underlying.nodes p = t.nodes p
  | .typedef _ t => DType.nodes_underlying p t
  | .qual _ t => DType.nodes_underlying p t
  | .struct _ _ _ _ => rfl
  | .ptr _ _ _ => rfl
  | .basic _ _ _ => rfl
  | .func _ _ _ => rfl
  | .other _ _ _ => rfl

/-- A step that emits leaves of some names with a value, and no leaf without one. -/
def Emits (c : FlatCtx) (names : List String) (r : FlatCtx × Option Value) : Prop :=
  r.1.names = c.names ++ if r.2.isSome then names else []

theorem Emits.skip {c c' : FlatCtx} {names : List String} (h : c'.names = c.names) :
    Emits c names (c', none) := by
  rw [Emits, h]
  exact (List.append_nil _).symm

/-- A planned variable emits its slots, the others emit nothing. -/
theorem planValue_emits {p : Place} (hp : p ≠ []) (t : DType) (c : FlatCtx) :
    Emits c ((t.slots p).map Slot.name) (planValue t p.name c) := by
  have hnodes := t.nodes_underlying p
  rw [planValue, DType.slots, ← hnodes]
  cases hu : t.underlying with
  | ptr n b elem =>
    have hplain : (DType.ptr n b elem).nodes p = [{ place := p, kind := .plain }] := rfl
    dsimp only
    rcases hobj : (DType.ptr n b elem).objectPointee with _ | u
    · dsimp only
      split
      · exact .skip (by simp)
      · rw [hplain, List.map_append, map_name_word hp]
        exact c.names_word _ _ _
    · dsimp only
      split
      · exact .skip (by simp)
      · split
        · exact .skip (by simp)
        · rw [Emits, DType.names_emitMemCaptures hp]
          simp only [FlatCtx.names_emit, FlatCtx.names_nextWord, FlatCtx.names_reserve,
            List.append_assoc, List.map_append, List.map_cons, Slot.name_eq hp]
          exact congrArg _ (congrArg (· :: _) String.append_empty.symm)
  | struct n s b fs =>
    have hobj : (DType.struct n s b fs).objectPointee = none := rfl
    rw [hobj]
    dsimp only
    cases hkind : structKind s fs with
    | string =>
      have hnode : (DType.struct n s b fs).nodes p = [{ place := p, kind := .string }] := by
        rw [DType.nodes, hkind]
      rw [hnode, List.map_append, map_name_slots hp, map_name_slots hp]
      dsimp only
      split
      · exact .skip (by simp)
      · split
        · exact .skip (by simp)
        · simp only [Emits, FlatCtx.names_emit, FlatCtx.names_nextWord, FlatCtx.names_reserve,
            List.append_assoc]
          rfl
    | slice =>
      have hnode : (DType.struct n s b fs).nodes p = [{ place := p, kind := .slice }] := by
        rw [DType.nodes, hkind]
      rw [hnode, List.map_append, map_name_slots hp, map_name_slots hp]
      dsimp only
      split
      · exact .skip (by simp)
      · split
        · exact .skip (by simp)
        · simp only [Emits, FlatCtx.names_emit, FlatCtx.names_nextWord, FlatCtx.names_reserve,
            List.append_assoc]
          rfl
    | iface nonEmpty =>
      have hnode : (DType.struct n s b fs).nodes p = [{ place := p, kind := .iface nonEmpty }] := by
        rw [DType.nodes, hkind]
      rw [hnode, List.map_append, map_name_slots hp, map_name_slots hp]
      dsimp only
      split
      · exact .skip (by simp)
      · split
        · exact .skip (by simp)
        · simp only [Emits, FlatCtx.names_emit, FlatCtx.names_nextWord, FlatCtx.names_reserve,
            List.append_assoc, names_ifaceTypeSpec]
          rfl
    | plain =>
      dsimp only
      split
      · exact .skip rfl
      · split
        · exact .skip (by simp)
        · obtain ⟨hwords, hjobs⟩ := DType.names_emitABI hp (.struct n s b fs)
            (c.reserve ((DType.struct n s b fs).abiWordCount +
              (DType.struct n s b fs).extraCaptures false)).1
          rw [Emits]
          dsimp only
          rw [names_emitRegCaptures, hwords, hjobs, FlatCtx.names_reserve, List.map_append,
            List.append_assoc]
          rfl
  | basic k n b =>
    have hplain : (DType.basic k n b).nodes p = [{ place := p, kind := .plain }] := rfl
    have hobj : (DType.basic k n b).objectPointee = none := rfl
    rw [hobj]
    dsimp only
    rw [hplain, List.map_append, map_name_word hp]
    cases hscalar : scalarValue (.basic k n b) with
    | none => exact .skip rfl
    | some r =>
      dsimp only
      split
      · exact .skip (by simp)
      · exact c.names_word _ _ _
  | func n x b => exact .skip rfl
  | other n x b => exact .skip rfl
  | typedef n u => exact absurd hu (t.underlying_ne_typedef n u)
  | qual q u => exact absurd hu (t.underlying_ne_qual q u)

/-- The names that the planner emits for the variables from the `k`-th on. -/
theorem names_planAll (rename : String → String) (k : Nat) (vars : List Variable) (c : FlatCtx) :
    (planAll rename vars c).1.names = c.names ++
      ((planned rename k vars c).flatMap fun kv =>
        kv.2.type.slots [(kv.1, rename kv.2.name)]).map Slot.name := by
  induction vars generalizing k c with
  | nil => exact (List.append_nil _).symm
  | cons v vars ih =>
    rw [planAll, planned]
    by_cases hfull : c.full = true
    · rw [if_pos hfull, if_pos hfull]
      exact (List.append_nil _).symm
    · have hemits := planValue_emits (p := [(k, rename v.name)]) (by simp) v.type c
      have hname : Place.name [(k, rename v.name)] = rename v.name := String.intercalate_singleton
      rw [hname, Emits] at hemits
      rw [if_neg hfull, if_neg hfull]
      generalize planValue v.type (rename v.name) c = result at hemits
      obtain ⟨c', node⟩ := result
      dsimp only at hemits ⊢
      rw [ih (k + 1) c', hemits, List.flatMap_append, List.map_append, List.append_assoc]
      cases node with
      | none => rfl
      | some value => simp

theorem names_build (rename : String → String) (vars : List Variable) :
    (planAll rename vars {}).1.build.map (·.varname) = (slots rename vars).map Slot.name := by
  have hall := names_planAll rename 0 vars {}
  rw [FlatCtx.build, List.map_map]
  exact hall

/-- The leaves of a plan are named after its slots. -/
theorem derive_names (rename : String → String) (vars : List Variable) :
    (derive rename vars).1.map (·.varname) = (slots rename vars).map Slot.name := by
  rw [← names_build]
  change (markIfaceSlots _).map _ = _
  rw [markIfaceSlots, List.map_map]
  refine List.map_congr_left fun a _ => ?_
  dsimp only [Function.comp]
  split
  · split <;> rfl
  · rfl

end GoFtrace.Uprobe
