import GoFtrace.Bpf.Wire
import GoFtrace.Elf.Goid

/-!
# The goroutine of a hit

`get_goid` of `internal/bpf/ftrace.c` with the offsets that `Start` of `cmd/tracer.go` hands to
`Load`: it walks from the thread pointer over `runtime.g` to the goroutine id.

* `getGoid_current`: it reads the id of the goroutine that the thread runs.
-/

namespace GoFtrace.Bpf

open Elf (File Cache FileSymbol GSlot GStruct Prog SymbolMap)

/-- `BpfConfig`; `pidns` is what `currentPidNamespace` returns, `none` for an error. -/
def bpfConfig (pidns : Option (UInt64 × UInt64)) (fetchArgs adaptiveSampling : Bool)
    (goidOffset gOffset : Int64) : Constants :=
  { goidOffset := goidOffset, gOffset := gOffset
    pidnsDev := (pidns.map Prod.fst).getD 0, pidnsIno := (pidns.map Prod.snd).getD 0
    fetchArgs := fetchArgs, adaptiveSampling := adaptiveSampling }

/-- `get_goid`. A read of user memory that fails leaves 0. -/
def getGoid (config : Constants) (tlsBase : UInt64) (readUser : UInt64 → Option UInt64) : UInt64 :=
  let gAddr := (readUser (tlsBase + config.gOffset.toUInt64)).getD 0
  (readUser (gAddr + config.goidOffset.toUInt64)).getD 0

/-- A thread with the thread pointer `fs` runs the goroutine `goid`: its slot holds the address of
a `runtime.g`, which has this id at the offset of the member, and both can be read. -/
structure Runs (symnames : SymbolMap) (progs : List Prog) (offset : Int64) (fs : UInt64)
    (readUser : UInt64 → Option UInt64) (goid : UInt64) : Prop where
  slot : ∃ slot addr, GSlot symnames progs fs slot ∧ readUser slot = some addr ∧
    readUser (addr + offset.toUInt64) = some goid

/-- With the offsets that are found in the file, a thread of any process that runs it is asked for
its own goroutine. -/
theorem getGoid_current {τ : Type} (f : File τ) (progs : List Prog) (g : GStruct) {c c' : Cache τ}
    {symbols : List FileSymbol} {symnames : SymbolMap}
    (hsyms : f.symbolTable c = (.returned (symbols, symnames) none, c')) {offset : Int64}
    (hgoid : g.HasGoid offset) :
    ∃ gOffset goidOffset, f.findGOffset progs c = (.returned gOffset none, c') ∧
      Elf.findGoidOffset g.entries = .returned goidOffset none ∧
      ∀ pidns fetchArgs adaptiveSampling fs readUser goid,
        Runs symnames progs offset fs readUser goid →
          getGoid (bpfConfig pidns fetchArgs adaptiveSampling goidOffset gOffset) fs readUser =
            goid := by
  refine ⟨Elf.gOffset symnames progs, offset, ?_, Elf.findGoidOffset_own hgoid, ?_⟩
  · rw [File.findGOffset, hsyms]
    rfl
  · intro pidns fetchArgs adaptiveSampling fs readUser goid hruns
    obtain ⟨slot, addr, hslot, haddr, hread⟩ := hruns.slot
    have hbase := Elf.gOffset_slot hslot
    show (readUser ((readUser (fs + (Elf.gOffset symnames progs).toUInt64)).getD 0 +
      offset.toUInt64)).getD 0 = goid
    rw [hbase, haddr, Option.getD_some, hread, Option.getD_some]

/-- A file that is linked externally. -/
def tlsFile : File Unit where
  symbols := .ok [{ name := "runtime.tlsg", value := 8, info := 6 }]
  text := none
  entries := []
  entriesError := none
  sortSymbols := .insertion _
  sortLines := .insertion _

/-- Its segment: the block has 20 bytes and 12 of padding. -/
def tlsProg : Prog := { type := Elf.ptTLS, vaddr := 0x1000, memsz := 20, align := 16 }

/-- A struct with `goid` behind another member. -/
def tlsStruct : GStruct where
  before := []
  members :=
    [{ tag := .member, name := some "stack", dataMemberLoc := some (.constant 0) },
      { tag := .member, name := some "goid", dataMemberLoc := some (.constant 152) }]
  after := []
  first := nofun

/-- The memory of a process: a slot and a `runtime.g`. -/
def tlsRead (addr : UInt64) : Option UInt64 :=
  if addr = 0x6fe8 then some 0xc000 else if addr = 0xc098 then some 42 else none

theorem getGoid_current_tls :
    ∃ gOffset goidOffset, Elf.findGoidOffset tlsStruct.entries = .returned goidOffset none ∧
      getGoid (bpfConfig none false true goidOffset gOffset) 0x7000 tlsRead = 42 := by
  obtain ⟨gOffset, goidOffset, -, hgoid, hcurrent⟩ :=
    @getGoid_current Unit tlsFile [tlsProg] tlsStruct {} _ _ _ rfl 152 ⟨_, rfl, rfl⟩
  refine ⟨gOffset, goidOffset, hgoid, hcurrent none false true 0x7000 tlsRead 42 ⟨?_⟩⟩
  refine ⟨0x6fe8, 0xc000, ⟨0x6fe0, 4, rfl, rfl, ⟨by decide, by decide, ?_⟩, rfl⟩, rfl, rfl⟩
  intro s hs hmod
  have hs : s + 20 ≤ 0x7000 := hs
  have hmod : s % 16 = 0 := hmod
  omega

end GoFtrace.Bpf
