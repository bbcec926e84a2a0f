import GoFtrace.Tracing.Identify

/-!
# Attached programs

`Load` configures the programs for the probes that the manager looks up through the symbol
table. As long as the functions are apart, an event leads back to the probe that it was hit at.

* `Attached.findable`: every probe of a function is found by its address.
-/

namespace GoFtrace.Tracing

section

variable {bcfg : Bpf.Config} {cfg : EventManager.Config} {goexit : UInt64}
  {fns : List TracedFunc}

/-- The programs are loaded for the probes of the functions, which the manager knows, and the
symbol table is in order. -/
structure Attached (bcfg : Bpf.Config) (cfg : EventManager.Config) (goexit : UInt64)
    (fns : List TracedFunc) : Prop where
  parsed : cfg.uprobes = parse goexit fns
  sorted : Elf.Sorted cfg.symbols
  loaded : Bpf.load cfg.uprobes cfg.adaptive = .ok bcfg

/-- The programs are loaded for the probes that the manager knows, and it finds each probe of a
function by its address. -/
structure Findable (bcfg : Bpf.Config) (cfg : EventManager.Config) : Prop where
  loaded : Bpf.load cfg.uprobes cfg.adaptive = .ok bcfg
  resolves : ∀ p ∈ cfg.uprobes, isFunctionProbe p = true → cfg.getUprobe p.address = some p

theorem isFunctionProbe_of_entry {p : GoFtrace.Uprobe} (h : Bpf.isWantedEntry p = true) :
    isFunctionProbe p = true := by
  simp only [Bpf.isWantedEntry, Bool.and_eq_true, beq_iff_eq] at h
  rw [isFunctionProbe, h.2]
  rfl

theorem isFunctionProbe_of_ret {p : GoFtrace.Uprobe} {adaptive : Bool}
    (h : Bpf.isWantedRet adaptive p = true) : isFunctionProbe p = true := by
  simp only [Bpf.isWantedRet, Bool.and_eq_true, beq_iff_eq] at h
  rw [isFunctionProbe, h.2]
  rfl

/-- Where the functions are apart, every event leads back to its probe. -/
theorem Attached.findable (h : Attached bcfg cfg goexit fns) (hapart : Apart cfg.symbols fns) :
    Findable bcfg cfg :=
  ⟨h.loaded, ((identifiable_iff h.sorted h.parsed).mpr hapart).found⟩

end

/-! ## A sample -/

/-- `R` from 16 to 31 and `A` from 48 to 63. -/
def treeFns : List TracedFunc :=
  [{ name := "R", entry := 16, rets := [15], wanted := true },
    { name := "A", entry := 48, rets := [15], wanted := false }]

def treeConfig : EventManager.Config :=
  { EventManager.sampleConfig true with
    symbols := [{ name := "runtime.goexit1", value := 8 }, { name := "R", value := 16 },
      { name := "A", value := 48 }]
    uprobes := parse 8 treeFns }

def treeKernel : Bpf.Config :=
  match Bpf.load treeConfig.uprobes true with
  | .ok cfg => cfg
  | .error _ => Bpf.sampleConfig

theorem attached_tree : Attached treeKernel treeConfig 8 treeFns where
  parsed := rfl
  sorted := by simp [Elf.Sorted, treeConfig]
  loaded := rfl

theorem apart_tree : Apart treeConfig.symbols treeFns where
  names := by with_unfolding_all decide
  offsets := by with_unfolding_all decide
  near f hf off hoff := by
    rcases List.mem_pair.mp hf with rfl | rfl <;> rcases List.mem_pair.mp hoff with rfl | rfl <;>
      exact ⟨by decide, by decide, by simp only [treeConfig]; decide⟩
  alone f hf := by
    rcases List.mem_pair.mp hf with rfl | rfl <;> with_unfolding_all rfl

end GoFtrace.Tracing
