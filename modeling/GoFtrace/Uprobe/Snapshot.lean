import GoFtrace.Lib.Bytes
import GoFtrace.Uprobe.Recipe

/-!
# The probe snapshot

The memory that `internal/uprobe/value.go` rebuilds from the leaves of one event. A leaf
is put at the address it was copied from; a read is served by the first chunk that holds
its first byte. `consumeMemCaptures` and `consumeRegCaptures` hand the capture leaves of a
value to `put`, in the order in which the planner emitted them.
-/

namespace GoFtrace.Uprobe

open Lib

/-- `LeafData`. -/
structure LeafData where
  data : List UInt8
  isNil : Bool := false
  unavailable : Bool := false
  deriving DecidableEq, Repr

/-- `snapChunk`. -/
structure SnapChunk where
  addr : UInt64
  data : List UInt8
  deriving DecidableEq, Repr

/-- `memSnapshot`. -/
structure MemSnapshot where
  chunks : List SnapChunk := []
  deriving DecidableEq, Repr

/-- Whether `put` stores anything. -/
def LeafData.stored (leaf : LeafData) (addr : UInt64) : Bool :=
  !(addr == 0 || leaf.unavailable || leaf.isNil || leaf.data.isEmpty)

def MemSnapshot.put (s : MemSnapshot) (addr : UInt64) (leaf : LeafData) : MemSnapshot :=
  if leaf.stored addr then { chunks := s.chunks ++ [{ addr := addr, data := leaf.data }] }
  else s

/-- `addr >= c.addr && addr < c.addr+uint64(len(c.data))`, with the wrapping sum of the
source. -/
def SnapChunk.holds (c : SnapChunk) (addr : UInt64) : Bool :=
  decide (c.addr ≤ addr) && decide (addr < c.addr + UInt64.ofNat c.data.length)

/-- `memSnapshot.read` of `n` bytes; `none` is an error. -/
def MemSnapshot.read (s : MemSnapshot) (addr : UInt64) (n : Nat) : Option (List UInt8) :=
  match s.chunks.find? (·.holds addr) with
  | none => none
  | some c =>
    let bytes := c.data.drop (addr - c.addr).toNat
    if n ≤ bytes.length then some (bytes.take n) else none

/-- `mem[start:]`, or nil when the offset is outside. -/
def fieldMem (mem : List UInt8) (off : Int) : List UInt8 :=
  if 0 ≤ off ∧ off < mem.length then mem.drop off.toNat else []

/-- The data word of an interface header, `0` when the header is cut short. -/
def ifaceDataWord (mem : List UInt8) : UInt64 :=
  if 16 ≤ mem.length then word (mem.drop 8) else 0

/-- `snap.put(readUint(mem), leaf)`, when `mem` still holds a word. -/
def putAtWord (mem : List UInt8) (off : UInt64) (leaf : LeafData) (snap : MemSnapshot) :
    MemSnapshot :=
  if 8 ≤ mem.length then snap.put (word mem + off) leaf else snap

/-- One string or slice in `consumeMemCaptures` and `consumeRegCaptures`. -/
def consumeBacking (mem : List UInt8) (captures : List LeafData) (snap : MemSnapshot) :
    List LeafData × MemSnapshot :=
  match captures with
  | [] => ([], snap)
  | leaf :: rest => (rest, putAtWord mem 0 leaf snap)

/-- One interface in `consumeMemCaptures`. The data-word leaf is skipped: its value is in
the object copy. -/
def consumeMemIface (nonEmpty : Bool) (mem : List UInt8) (captures : List LeafData)
    (snap : MemSnapshot) : List LeafData × MemSnapshot :=
  match nonEmpty, captures with
  | true, typeLeaf :: _ :: valueLeaf :: rest =>
    (rest, (putAtWord mem 8 typeLeaf snap).put (ifaceDataWord mem) valueLeaf)
  | false, _ :: valueLeaf :: rest => (rest, snap.put (ifaceDataWord mem) valueLeaf)
  | _, captures => (captures, snap)

/-- `bindIfaceCaptures`. -/
def bindIfaceCaptures (header : List UInt8) (captures : List LeafData) (snap : MemSnapshot) :
    MemSnapshot :=
  match captures with
  | [] => snap
  | leaf :: _ => if header.length < 16 then snap else snap.put (word (header.drop 8)) leaf

mutual

/-- `consumeMemCaptures`. Its address argument is never read. -/
def DType.consumeMemCaptures : DType → List UInt8 → List LeafData → MemSnapshot →
    List LeafData × MemSnapshot
  | .typedef _ t, mem, captures, snap => t.consumeMemCaptures mem captures snap
  | .qual _ t, mem, captures, snap => t.consumeMemCaptures mem captures snap
  | .struct _ s _ fs, mem, captures, snap =>
    match structKind s fs with
    | .string => consumeBacking mem captures snap
    | .slice => consumeBacking mem captures snap
    | .iface nonEmpty => consumeMemIface nonEmpty mem captures snap
    | .plain => fs.consumeMemCaptures mem captures snap
  | _, _, captures, snap => (captures, snap)

def Fields.consumeMemCaptures : Fields → List UInt8 → List LeafData → MemSnapshot →
    List LeafData × MemSnapshot
  | .nil, _, captures, snap => (captures, snap)
  | .cons _ off t rest, mem, captures, snap =>
    let (captures, snap) := t.consumeMemCaptures (fieldMem mem off) captures snap
    rest.consumeMemCaptures mem captures snap

end

mutual

/-- `consumeRegCaptures`. -/
def DType.consumeRegCaptures : DType → List UInt8 → List LeafData → MemSnapshot →
    List LeafData × MemSnapshot
  | .typedef _ t, img, captures, snap => t.consumeRegCaptures img captures snap
  | .qual _ t, img, captures, snap => t.consumeRegCaptures img captures snap
  | .struct _ s _ fs, img, captures, snap =>
    match structKind s fs with
    | .string => consumeBacking img captures snap
    | .slice => consumeBacking img captures snap
    | .iface _ => (captures.tail, bindIfaceCaptures img captures snap)
    | .plain => fs.consumeRegCaptures img captures snap
  | _, _, captures, snap => (captures, snap)

def Fields.consumeRegCaptures : Fields → List UInt8 → List LeafData → MemSnapshot →
    List LeafData × MemSnapshot
  | .nil, _, captures, snap => (captures, snap)
  | .cons _ off t rest, img, captures, snap =>
    let (captures, snap) := t.consumeRegCaptures (fieldMem img off) captures snap
    rest.consumeRegCaptures img captures snap

end

/-! ## Recipe leaves -/

/-- `evalRel`: `0` when a dereference is not in the snapshot. -/
def evalRel (base : UInt64) : List ArgRule → MemSnapshot → UInt64
  | [], _ => base
  | s :: steps, snap =>
    if s.dereference then
      match snap.read (base + UInt64.ofInt s.offset) 8 with
      | none => 0
      | some p => evalRel (word p) steps snap
    else evalRel (base + UInt64.ofInt s.offset) steps snap

/-- What `renderAuto` shares between the values of one event: the two leaf cursors and,
for the record, the pairs of an extra leaf and the address it was put at. -/
structure Cursor where
  cur : Nat := 0
  extraCur : Nat
  bound : List (Nat × UInt64) := []

/-- The loop of `applyRecipeExtras`. -/
def applyRules (dataPtr : UInt64) (all : List LeafData) :
    List RelRule → Cursor → MemSnapshot → Cursor × MemSnapshot
  | [], k, snap => (k, snap)
  | r :: rules, k, snap =>
    match all[k.extraCur]? with
    | none => (k, snap)
    | some leaf =>
      let addr := evalRel dataPtr r.steps snap
      applyRules dataPtr all rules
        { k with extraCur := k.extraCur + 1, bound := k.bound ++ [(k.extraCur, addr)] }
        (snap.put addr leaf)

def applyRecipeExtras (recipes : Recipes) (typeAddr dataPtr : UInt64) (all : List LeafData)
    (k : Cursor) (snap : MemSnapshot) : Cursor × MemSnapshot :=
  if typeAddr = 0 then (k, snap) else applyRules dataPtr all (recipes typeAddr) k snap

/-- The concrete type address of an interface header in an object: the itab of a non-empty
interface is followed through the snapshot. -/
def nestedTypeAddr (nonEmpty : Bool) (mem : List UInt8) (snap : MemSnapshot) : UInt64 :=
  let tab := if 8 ≤ mem.length then word mem else 0
  if nonEmpty ∧ tab ≠ 0 then
    match snap.read (tab + 8) 8 with
    | none => tab
    | some p => word p
  else tab

mutual

/-- `applyNestedRecipes`. -/
def DType.applyNestedRecipes (recipes : Recipes) (all : List LeafData) :
    DType → List UInt8 → Cursor → MemSnapshot → Cursor × MemSnapshot
  | .typedef _ t, mem, k, snap => t.applyNestedRecipes recipes all mem k snap
  | .qual _ t, mem, k, snap => t.applyNestedRecipes recipes all mem k snap
  | .struct _ s _ fs, mem, k, snap =>
    if isInterface s fs then
      applyRecipeExtras recipes (nestedTypeAddr (interfaceIsNonEmpty s fs) mem snap)
        (ifaceDataWord mem) all k snap
    else if isString s || isSlice s fs then (k, snap)
    else fs.applyNestedRecipes recipes all mem k snap
  | _, _, k, snap => (k, snap)

def Fields.applyNestedRecipes (recipes : Recipes) (all : List LeafData) :
    Fields → List UInt8 → Cursor → MemSnapshot → Cursor × MemSnapshot
  | .nil, _, k, snap => (k, snap)
  | .cons _ off t rest, mem, k, snap =>
    let (k, snap) := t.applyNestedRecipes recipes all (fieldMem mem off) k snap
    rest.applyNestedRecipes recipes all mem k snap

end

end GoFtrace.Uprobe
