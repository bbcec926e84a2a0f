import Mathlib.Data.List.Basic

/-!
# The children of a DIE

`dieChildren` and `FunctionVariables` of `elf/dwarf_args.go`. The entries of `.debug_info` come
as a flat stream in preorder, in which a null entry ends the children of an entry; one counter
tells the children of the root from what is below them.

* `dieChildren_tree`: the children of the root of a tree.
* `functionVariables_own`: the variables of a function are those of its own parameters.
-/

namespace GoFtrace.Elf

/-! ## Entries -/

/-- `dwarf.Tag`, as far as it is compared; `null` is 0. -/
inductive DieTag where
  | null | formalParameter | other
  deriving DecidableEq, Repr

/-- `dwarf.Entry` with the attributes that `FunctionVariables` reads; `type` is what
`dwarfData.Type` gives for the attribute, `none` where either is missing. -/
structure Die (τ : Type) where
  tag : DieTag
  children : Bool := false
  name : Option String := none
  varParam : Bool := false
  type : Option τ := none
  deriving DecidableEq, Repr

/-- `elf.Variable`. -/
structure Variable (τ : Type) where
  name : String
  isRet : Bool
  type : τ
  deriving DecidableEq, Repr

section
variable {τ : Type}

/-! ## The reader -/

/-- The loop of `dieChildren`: what it collects, and the entries that it leaves unread. -/
def childLoop : List (Die τ) → Nat → List (Die τ) × List (Die τ)
  | [], _ => ([], [])
  | c :: rest, depth =>
    if c.tag = .null then
      match depth with
      | 0 => ([], rest)
      | depth + 1 => childLoop rest depth
    else
      let (out, unread) := childLoop rest (if c.children then depth + 1 else depth)
      (if depth = 0 then c :: out else out, unread)

@[simp] theorem childLoop_close (rest : List (Die τ)) :
    childLoop ({ tag := .null } :: rest) 0 = ([], rest) := by
  simp [childLoop]

@[simp] theorem childLoop_ascend (rest : List (Die τ)) (depth : Nat) :
    childLoop ({ tag := .null } :: rest) (depth + 1) = childLoop rest depth := by
  simp [childLoop]

theorem childLoop_die {c : Die τ} (hc : c.tag ≠ .null) (rest : List (Die τ)) (depth : Nat) :
    childLoop (c :: rest) depth =
      ((if depth = 0 then [c] else []) ++
          (childLoop rest (if c.children then depth + 1 else depth)).1,
        (childLoop rest (if c.children then depth + 1 else depth)).2) := by
  rw [childLoop.eq_def]
  dsimp only
  rw [if_neg hc]
  split
  · rfl
  · rfl

/-- `dieChildren`, with the entries that the reader yields from the DIE on. -/
def dieChildren (die : Option (Die τ)) (reader : List (Die τ)) : List (Die τ) × List (Die τ) :=
  match die with
  | none => ([], reader)
  | some die =>
    if !die.children then ([], reader)
    else
      match reader with
      | [] => ([], [])
      | _ :: reader => childLoop reader 0

/-! ## Variables -/

/-- The variable of a child; `none` where the loop of `FunctionVariables` goes on. -/
def variableOf (child : Die τ) : Option (Variable τ) :=
  if child.tag = .formalParameter then
    let name := child.name.getD ""
    child.type.map fun typ =>
      { name := name, isRet := child.varParam || "~r".toList.isPrefixOf name.toList, type := typ }
  else none

/-- The loop of `FunctionVariables`: the arguments and the results, where `seenRets` are the
names of the results so far. -/
def variableLoop : List (Die τ) → List String → List (Variable τ) × List (Variable τ)
  | [], _ => ([], [])
  | child :: rest, seenRets =>
    match variableOf child with
    | none => variableLoop rest seenRets
    | some v =>
      if v.isRet then
        if seenRets.contains v.name then variableLoop rest seenRets
        else
          let (args, rets) := variableLoop rest (v.name :: seenRets)
          (args, v :: rets)
      else
        let (args, rets) := variableLoop rest seenRets
        (v :: args, rets)

/-- `FunctionVariables`, over the map of the subprogram DIEs, each with the entries from it
on. -/
def functionVariables (dies : String → Option (Die τ × List (Die τ))) (funcname : String) :
    Except String (List (Variable τ) × List (Variable τ)) :=
  match dies funcname with
  | none => .error ("DIE not found: " ++ funcname)
  | some (die, reader) => .ok (variableLoop (dieChildren (some die) reader).1 [])

/-! ## Trees -/

/-- The children of an entry. A leaf announces no children; a node does, and may have none. -/
inductive Siblings (τ : Type) where
  | nil
  | leaf (die : Die τ) (tagged : die.tag ≠ .null) (childless : die.children = false)
      (rest : Siblings τ)
  | node (die : Die τ) (tagged : die.tag ≠ .null) (announces : die.children = true)
      (children rest : Siblings τ)

namespace Siblings

/-- The entries themselves, without what is below them. -/
def roots : Siblings τ → List (Die τ)
  | nil => []
  | leaf die _ _ rest => die :: rest.roots
  | node die _ _ _ rest => die :: rest.roots

/-- The stream in preorder, with a null entry at the end of each list of children. -/
def entries : Siblings τ → List (Die τ)
  | nil => []
  | leaf die _ _ rest => die :: rest.entries
  | node die _ _ children rest =>
    die :: (children.entries ++ { tag := .null } :: rest.entries)

/-- The loop over siblings at some depth, and whatever follows them. -/
theorem childLoop_entries (forest : Siblings τ) (depth : Nat) (following : List (Die τ)) :
    childLoop (forest.entries ++ following) depth =
      ((if depth = 0 then forest.roots else []) ++ (childLoop following depth).1,
        (childLoop following depth).2) := by
  induction forest generalizing depth following with
  | nil => simp [entries, roots]
  | leaf die tagged childless rest ih =>
    rw [entries, List.cons_append, childLoop_die tagged, childless, if_neg Bool.false_ne_true, ih,
      roots]
    split
    · rfl
    · rfl
  | node die tagged announces children rest ihc ihr =>
    -- below the node the loop collects nothing, and the null entry brings the depth back
    rw [entries, List.cons_append, List.append_assoc, List.cons_append, childLoop_die tagged,
      announces, if_pos rfl, ihc, childLoop_ascend, ihr, if_neg (Nat.succ_ne_zero depth),
      List.nil_append, roots]
    split
    · rfl
    · rfl

/-- The loop over all that is below a root ends at the null entry that closes it. -/
theorem childLoop_closed (forest : Siblings τ) (following : List (Die τ)) :
    childLoop (forest.entries ++ ({ tag := .null } :: following)) 0 =
      (forest.roots, following) := by
  rw [forest.childLoop_entries, childLoop_close, if_pos rfl, List.append_nil]

end Siblings

/-- A DIE with all that is below it. -/
inductive DieTree (τ : Type) where
  | leaf (die : Die τ) (tagged : die.tag ≠ .null) (childless : die.children = false)
  | node (die : Die τ) (tagged : die.tag ≠ .null) (announces : die.children = true)
      (children : Siblings τ)

namespace DieTree

def root : DieTree τ → Die τ
  | leaf die _ _ => die
  | node die _ _ _ => die

/-- The direct children of the root. -/
def children : DieTree τ → List (Die τ)
  | leaf _ _ _ => []
  | node _ _ _ children => children.roots

/-- The stream that starts at the root: the root, and up to the null entry that closes it. -/
def entries : DieTree τ → List (Die τ)
  | leaf die _ _ => [die]
  | node die _ _ children => die :: (children.entries ++ [{ tag := .null }])

/-- Where the reader stands afterwards: a root without children is not read at all. -/
def unread (tree : DieTree τ) (following : List (Die τ)) : List (Die τ) :=
  if tree.root.children then following else tree.entries ++ following

end DieTree

/-- The direct children of the root, in order; nothing behind the null entry that closes the
root is read. -/
theorem dieChildren_tree (tree : DieTree τ) (following : List (Die τ)) :
    dieChildren (some tree.root) (tree.entries ++ following) =
      (tree.children, tree.unread following) := by
  cases tree with
  | leaf die tagged childless =>
    simp [DieTree.unread, DieTree.root, dieChildren, childless, DieTree.children]
  | node die tagged announces children =>
    have hloop := children.childLoop_closed following
    simpa [DieTree.unread, DieTree.root, dieChildren, announces, DieTree.entries,
      DieTree.children] using hloop

/-! ## Parameters -/

/-- The arguments are the children that are no results, in order. -/
theorem variableLoop_args (dies : List (Die τ)) (seenRets : List String) :
    (variableLoop dies seenRets).1 = (dies.filterMap variableOf).filter fun v => !v.isRet := by
  induction dies generalizing seenRets with
  | nil => rfl
  | cons child rest ih =>
    rw [variableLoop, List.filterMap_cons]
    cases variableOf child with
    | none => exact ih seenRets
    | some v =>
      dsimp only
      cases hret : v.isRet with
      | true =>
        rw [if_pos rfl, List.filter_cons_of_neg (by simp [hret])]
        split
        · exact ih seenRets
        · exact ih (v.name :: seenRets)
      | false =>
        rw [if_neg Bool.false_ne_true, List.filter_cons_of_pos (by simp [hret])]
        exact congrArg (v :: ·) (ih seenRets)

/-- The results come from the children as well. -/
theorem variableLoop_rets (dies : List (Die τ)) (seenRets : List String) :
    (variableLoop dies seenRets).2.Sublist
      ((dies.filterMap variableOf).filter fun v => v.isRet) := by
  induction dies generalizing seenRets with
  | nil => exact .slnil
  | cons child rest ih =>
    rw [variableLoop, List.filterMap_cons]
    cases variableOf child with
    | none => exact ih seenRets
    | some v =>
      dsimp only
      cases hret : v.isRet with
      | true =>
        rw [if_pos rfl, List.filter_cons_of_pos hret]
        split
        · exact (ih seenRets).cons v
        · exact (ih (v.name :: seenRets)).cons_cons v
      | false =>
        rw [if_neg Bool.false_ne_true, List.filter_cons_of_neg (by simp [hret])]
        exact ih seenRets

/-- The variables of a function are those of the direct children of its DIE. -/
theorem functionVariables_own {dies : String → Option (Die τ × List (Die τ))} {funcname : String}
    (tree : DieTree τ) (following : List (Die τ))
    (hdie : dies funcname = some (tree.root, tree.entries ++ following)) :
    functionVariables dies funcname = .ok (variableLoop tree.children []) := by
  rw [functionVariables, hdie]
  dsimp only
  cases tree with
  | leaf die tagged childless =>
    simp [DieTree.root, dieChildren, childless, DieTree.children]
  | node die tagged announces children =>
    have hloop := children.childLoop_closed following
    simp [DieTree.root, dieChildren, announces, DieTree.entries, DieTree.children, hloop]

end

end GoFtrace.Elf
